import Jaos.Heap.FreeIndex

/-!
# `free` of any address

`kfree` is a system call, and `free` takes whatever address it gets for the payload of a block. A
wrong magic is reported, but nothing follows from it: the address is marked, merged and inserted like
any other. The definitions below follow the call for an arbitrary `p`; `Harmless` is the condition
that all this leaves the heap as it was:

* exactly one of the tests for neighbours passes. After the left one nothing is inserted; after the
  right one an entry is removed and one inserted, which is the same list only if the header was the
  last entry of the index and goes back there, that is for a hole freed again;
* the end of the heap is not reached, or the contraction keeps the length;
* every store hits the memory outside or writes what is there.

`heap_t` and the array of the index lie from `record` on up to the first chunk, and what a store leaves
there the code reads back as its bounds and its index: they count as bytes of the heap.
-/

namespace Kheap

open Lib OrderedArray

section
variable (h : Heap) (p : Nat)

/-- Where `free(p)` looks for the header. -/
def headerOf : Nat := sub64 p sizeofHeader

/-- The address behind the block, by the size in the header. -/
def behind : Nat := add64 (headerOf p) (sizeAt h.mem (headerOf p))

/-- The memory once the header is marked as a hole. -/
def markedMem : Mem := setIsHole (headerOf p) 1 h.mem

/-- The header that the footer below points to. -/
def below : Nat := headerAt (markedMem h p) (sub64 (headerOf p) sizeofFooter)

/-- The test of "unify left". -/
def LeftTest : Prop :=
  magicAt (markedMem h p) (sub64 (headerOf p) sizeofFooter) = heapMagic ∧
    isHoleAt (markedMem h p) (below h p) = 1

instance : Decidable (LeftTest h p) := by
  unfold LeftTest
  infer_instance

/-- The header of the merged hole. -/
def startOf : Nat := if LeftTest h p then below h p else headerOf p

/-- The memory after "unify left". -/
def joinedMem : Mem :=
  if LeftTest h p then
    let m := setHeader (sub64 (behind h p) sizeofFooter) (below h p) (markedMem h p)
    setSize (below h p) (add64 (sizeAt m (below h p)) (sizeAt (markedMem h p) (headerOf p))) m
  else markedMem h p

/-- The test of "unify right". -/
def RightTest : Prop :=
  magicAt (joinedMem h p) (behind h p) = heapMagic ∧ isHoleAt (joinedMem h p) (behind h p) ≠ 0

instance : Decidable (RightTest h p) := by
  unfold RightTest
  infer_instance

/-- The memory after "unify right". -/
def mergedMem : Mem :=
  if RightTest h p then
    setSize (startOf h p)
      (add64 (sizeAt (joinedMem h p) (startOf h p)) (sizeAt (joinedMem h p) (behind h p)))
      (joinedMem h p)
  else joinedMem h p

/-- The end of the merged hole, by the sizes in memory. -/
def lastOf : Nat :=
  if RightTest h p then add64 (behind h p) (sizeAt (mergedMem h p) (behind h p)) else behind h p

/-- The index after "unify right". -/
def rightIndex : OrderedArray Nat :=
  if RightTest h p then removeOrderedArray (indexOf (behind h p) h.index) h.index else h.index

/-- The memory after the whole call, if the heap keeps its length. -/
def storedMem : Mem :=
  if lastOf h p = h.endAddress ∧ 0 < sizeAt (mergedMem h p) (startOf h p) then
    let m := setSize (startOf h p) (sizeAt (mergedMem h p) (startOf h p)) (mergedMem h p)
    writeFooter (sub64 (add64 (startOf h p) (sizeAt m (startOf h p))) sizeofFooter) (startOf h p) m
  else mergedMem h p

/-- "no longer exists" finds no header to remove. -/
def NotGone : Prop :=
  lastOf h p = h.endAddress → sizeAt (mergedMem h p) (startOf h p) = 0 →
    behind h p ∉ (rightIndex h p).toList

/-- **The condition** (module doc). -/
structure Harmless (record : Nat) : Prop where
  oneTest : LeftTest h p ∧ ¬ RightTest h p ∨ ¬ LeftTest h p ∧ RightTest h p ∧
    behind h p ∉ h.index.toList ∧ h.index.toList.getLast? = some (headerOf p) ∧
    ∀ a ∈ h.index.toList.dropLast, sizeAt h.mem a < sizeAt h.mem (headerOf p)
  length : lastOf h p = h.endAddress →
    add64 h.startAddress (contractSize (sub64 (startOf h p) h.startAddress)) = h.endAddress
  notGone : NotGone h p
  merged : Mem.Same h.mem (mergedMem h p) record h.startAddress
  stores : Mem.Same h.mem (storedMem h p) record h.endAddress

end

/-- **No damage**: the bounds, the bytes from `heap_t` on and the index of the heap are the same. -/
structure Untouched (record : Nat) (h h' : Heap) : Prop where
  start : h'.startAddress = h.startAddress
  endEq : h'.endAddress = h.endAddress
  bytes : Mem.Same h.mem h'.mem record h.endAddress
  index : h'.index.toList = h.index.toList

/-! ## The steps of the call -/

section
variable {σ : Type} {h : Heap} {p : Nat}

theorem free_marked (pg : KernelPages σ) (s : σ) (hp : p ≠ 0) :
    ∃ g, free pg p h s = freeMerge pg (headerOf p) (sub64 (behind h p) sizeofFooter) g s ∧
      g.mem = markedMem h p ∧ g.index = h.index ∧ g.startAddress = h.startAddress ∧
      g.endAddress = h.endAddress := by
  unfold free
  rw [if_neg hp]
  refine ⟨_, rfl, ?_⟩
  unfold putsIf puts
  split <;> split <;> exact ⟨rfl, rfl, rfl, rfl⟩

theorem freeLeft_marked {g : Heap} (hg : g.mem = markedMem h p) :
    freeLeft (headerOf p) (sub64 (behind h p) sizeofFooter) g =
      (startOf h p, decide (¬ LeftTest h p), onMem (fun _ => joinedMem h p) g) := by
  unfold freeLeft startOf joinedMem
  simp only [hg]
  by_cases hl : LeftTest h p
  · have ht := hl
    unfold LeftTest below at ht
    rw [if_pos ht, if_pos hl, if_pos hl, decide_eq_false (fun hn => hn hl)]
    simp only [onMem, hg]
    rfl
  · have ht := hl
    unfold LeftTest below at ht
    rw [if_neg ht, if_neg hl, if_neg hl, decide_eq_true hl, ← hg]
    rfl

theorem add64_sub64 {x : Nat} (h : x < 2 ^ 64) : add64 (sub64 x 16) 16 = x := by
  unfold add64 sub64
  omega

theorem freeRight_marked {g : Heap} (hg : g.mem = joinedMem h p) (hindex : g.index = h.index) :
    ∃ f k, freeRight (startOf h p) (sub64 (behind h p) sizeofFooter) g = (f, k) ∧
      add64 f sizeofFooter = lastOf h p ∧ k.mem = mergedMem h p ∧ k.index = rightIndex h p ∧
      k.startAddress = g.startAddress ∧ k.endAddress = g.endAddress := by
  have hbehind : add64 (sub64 (behind h p) sizeofFooter) sizeofFooter = behind h p :=
    add64_sub64 (add64_lt _ _)
  unfold freeRight lastOf mergedMem rightIndex
  simp only [hbehind, hg]
  by_cases hr : RightTest h p
  · have ht := hr
    unfold RightTest at ht
    rw [if_pos ht, if_pos hr, if_pos hr, if_pos hr]
    refine ⟨_, _, rfl, ?_, ?_⟩
    · rw [onMem_mem, hg]
      exact add64_sub64 (add64_lt _ _)
    · unfold putsIf puts
      split
      · exact ⟨by simp only [removeIndex_mem, onMem, hg], by simp only [removeIndex_index, onMem, hindex],
          rfl, rfl⟩
      · exact ⟨by simp only [removeIndex_mem, onMem, hg], by simp only [removeIndex_index, onMem, hindex],
          rfl, rfl⟩
  · have ht := hr
    unfold RightTest at ht
    rw [if_neg ht, if_neg hr, if_neg hr, if_neg hr]
    exact ⟨_, g, rfl, hbehind, hg, hindex, rfl, rfl⟩

theorem indexOf_lt {a : Nat} {index : OrderedArray Nat} :
    indexOf a index < index.size ↔ a ∈ index.toList := by
  refine ⟨fun h => Decidable.byContradiction fun hn => ?_, fun h => (indexOf_spec (mem_toList.1 h)).1⟩
  rw [indexOf_not_mem hn] at h
  omega

/-- **Contraction that keeps the length.** -/
theorem freeContract_marked (pg : KernelPages σ) (s : σ) {k : Heap} {f : Nat}
    (hf : add64 f sizeofFooter = lastOf h p) (hmem : k.mem = mergedMem h p)
    (hindex : k.index = rightIndex h p) (hstart : k.startAddress = h.startAddress)
    (hend : k.endAddress = h.endAddress)
    (hkept : lastOf h p = h.endAddress →
      add64 h.startAddress (contractSize (sub64 (startOf h p) h.startAddress)) = h.endAddress) :
    ∃ q u, freeContract pg (startOf h p) f (behind h p) k s = (q, u) ∧ q.mem = storedMem h p ∧
      (q.index = rightIndex h p ∧ NotGone h p ∨
        ¬ NotGone h p ∧ indexOf (behind h p) (rightIndex h p) < (rightIndex h p).size ∧
          q.index = removeOrderedArray (indexOf (behind h p) (rightIndex h p)) (rightIndex h p)) := by
  unfold freeContract storedMem NotGone
  simp only [hf, hend, hstart]
  by_cases hl : lastOf h p = h.endAddress
  · obtain ⟨k', t, hk, hkm, hki, -, -⟩ := contract_eq pg (sub64 (startOf h p) h.startAddress) k s
    have hc := contractSize_lt (sub64_lt (startOf h p) h.startAddress)
    have hgiven : sub64 (sub64 h.endAddress h.startAddress)
        (contractSize (sub64 (startOf h p) h.startAddress)) = 0 := by
      rw [← hkept hl]
      generalize contractSize (sub64 (startOf h p) h.startAddress) = n at hc
      unfold add64 sub64
      omega
    have hsize : sub64 (sizeAt (mergedMem h p) (startOf h p)) 0 =
        sizeAt (mergedMem h p) (startOf h p) :=
      sub64_of_le (Nat.zero_le _) (Mem.load_lt _ _ 8)
    rw [if_pos hl, hk]
    simp only [hgiven, hkm, hmem, hsize, onMem_mem]
    by_cases hz : 0 < sizeAt (mergedMem h p) (startOf h p)
    · rw [if_pos hz, if_pos ⟨hl, hz⟩]
      refine ⟨_, _, rfl, ?_, .inl ⟨?_, fun _ h0 => by omega⟩⟩
      · simp only [onMem_mem, hkm, hmem, hsize]
      · simp only [onMem_index, hki, hindex]
    · rw [if_neg hz, if_neg (show ¬ (lastOf h p = h.endAddress ∧
        0 < sizeAt (mergedMem h p) (startOf h p)) from fun hn => hz hn.2)]
      have hk' : k'.index = rightIndex h p := hki.trans hindex
      by_cases hi : indexOf (behind h p) k'.index < k'.index.size
      · rw [if_pos hi]
        refine ⟨_, _, rfl, by rw [removeIndex_mem, hkm, hmem], .inr ?_⟩
        rw [removeIndex_index, hk']
        rw [hk'] at hi
        exact ⟨fun hn => hn hl (by omega) (indexOf_lt.1 hi), hi, rfl⟩
      · rw [if_neg hi]
        rw [hk'] at hi
        exact ⟨_, _, rfl, hkm.trans hmem, .inl ⟨hk', fun _ _ hn => hi (indexOf_lt.2 hn)⟩⟩
  · rw [if_neg hl, if_neg (show ¬ (lastOf h p = h.endAddress ∧
      0 < sizeAt (mergedMem h p) (startOf h p)) from fun hn => hl hn.1)]
    exact ⟨k, s, rfl, hmem, .inl ⟨hindex, fun h => absurd h hl⟩⟩

/-- **The call on any address**: what it leaves, unless it changes the length. -/
theorem free_any (pg : KernelPages σ) (s : σ) (hp : p ≠ 0) :
    (free pg p h s).1.startAddress = h.startAddress ∧
      (free pg p h s).1.endAddress = (if lastOf h p = h.endAddress then
        add64 h.startAddress (contractSize (sub64 (startOf h p) h.startAddress)) else h.endAddress) ∧
      ((free pg p h s).1.endAddress = h.endAddress →
        (free pg p h s).1.mem = storedMem h p ∧
        ∃ idx, (free pg p h s).1.index = (if LeftTest h p then idx else
            insertOrderedArray (headerTLessThan (storedMem h p)) (headerOf p) idx) ∧
          (idx = rightIndex h p ∧ NotGone h p ∨
            ¬ NotGone h p ∧ indexOf (behind h p) (rightIndex h p) < (rightIndex h p).size ∧
              idx = removeOrderedArray (indexOf (behind h p) (rightIndex h p)) (rightIndex h p))) := by
  obtain ⟨g, hfree, hgm, hgi, hgs, hge⟩ := free_marked (h := h) pg s hp
  have hleft := freeLeft_marked hgm
  obtain ⟨f, k, hright, hf, hkm, hki, hks, hke⟩ :=
    freeRight_marked (h := h) (p := p) (g := onMem (fun _ => joinedMem h p) g)
      (by rw [onMem_mem]) (by rw [onMem_index, hgi])
  rw [onMem_startAddress, hgs] at hks
  rw [onMem_endAddress, hge] at hke
  have hbehind : add64 (sub64 (behind h p) sizeofFooter) sizeofFooter = behind h p :=
    add64_sub64 (add64_lt _ _)
  rcases hq : freeContract pg (startOf h p) f (behind h p) k s with ⟨q, u⟩
  obtain ⟨hqs, hqe⟩ := freeContract_bounds pg (startOf h p) f (behind h p) k s
  rw [hq, hks] at hqs
  rw [hq, hf, hks, hke] at hqe
  have hcon : freeContract pg (startOf h p) f (add64 (sub64 (behind h p) sizeofFooter) sizeofFooter) k s =
      (q, u) := by rw [hbehind, hq]
  rw [hfree, freeMerge_eq hleft hright hcon]
  obtain ⟨fin, hfin, hfm, hfs, hfe, hfi⟩ : ∃ fin, (if decide (¬ LeftTest h p) = true then
      insertIndex (startOf h p) q else q) = fin ∧ fin.mem = q.mem ∧
      fin.startAddress = q.startAddress ∧ fin.endAddress = q.endAddress ∧
      fin.index = if LeftTest h p then q.index else
        insertOrderedArray (headerTLessThan q.mem) (startOf h p) q.index := by
    refine ⟨_, rfl, ?_⟩
    by_cases hl : LeftTest h p
    · rw [if_pos hl, if_neg (by simpa using hl)]
      exact ⟨rfl, rfl, rfl, rfl⟩
    · rw [if_neg hl, if_pos (by simpa using hl)]
      exact ⟨rfl, rfl, rfl, rfl⟩
  dsimp only at hqs hqe ⊢
  rw [hfin]
  refine ⟨hfs.trans hqs, hfe.trans hqe, fun hkept => ?_⟩
  rw [hfe, hqe] at hkept
  have hkept' : lastOf h p = h.endAddress →
      add64 h.startAddress (contractSize (sub64 (startOf h p) h.startAddress)) = h.endAddress := by
    intro hl
    exact (if_pos hl).symm.trans hkept
  obtain ⟨q', u', hq', hmem, hidx⟩ := freeContract_marked pg s hf hkm hki hks hke hkept'
  rw [hq] at hq'
  obtain ⟨rfl, rfl⟩ := Prod.mk.inj hq'
  refine ⟨hfm.trans hmem, q.index, ?_, hidx⟩
  rw [hfi, hmem]
  by_cases hl : LeftTest h p
  · rw [if_pos hl, if_pos hl]
  · rw [if_neg hl, if_neg hl]
    unfold startOf
    rw [if_neg hl]

end

/-! ## The index -/

/-- Two ways to take one entry out of a list without duplicates. -/
theorem perm_cons_eq {L R : List Nat} {a b : Nat} (hL : L.Nodup) (ha : L.Perm (a :: R))
    (hb : L.Perm (b :: R)) : a = b := by
  have hin : a ∈ b :: R := hb.mem_iff.1 (ha.mem_iff.2 List.mem_cons_self)
  have hnot := (List.nodup_cons.1 (ha.nodup_iff.1 hL)).1
  exact (List.mem_cons.1 hin).resolve_right hnot

section
variable {σ : Type} {h h' : Heap} {cs : List Chunk} {p : Nat}

/-- A listed header does not reach to itself. -/
theorem Indexed.behind_ne (w : Indexed h cs) (hin : headerOf p ∈ h.index.toList) :
    behind h p ≠ headerOf p := by
  obtain ⟨c, hc, -, ha⟩ := mem_holes.1 (w.index.mem_iff.1 hin)
  have h1 := w.min c hc
  have h2 := w.chunk_lt hc
  unfold behind
  rw [← ha, (w.header c hc).size, add64_of_lt (by omega)]
  omega

/-- The size in a listed header is part of the heap's bytes. -/
theorem Indexed.listed_size (w : Indexed h cs) {m : Mem} {record : Nat}
    (hm : Mem.Same h.mem m record h.endAddress) (hle : record ≤ h.startAddress) {a : Nat} (ha : a ∈ h.index.toList) :
    sizeAt m a = sizeAt h.mem a := by
  obtain ⟨c, hc, -, rfl⟩ := mem_holes.1 (w.index.mem_iff.1 ha)
  have h1 := w.min c hc
  have h2 := w.bounds hc
  have h3 : c.fin = c.addr + c.size := rfl
  exact sizeAt_same (hm.mono (by omega) (by omega))

theorem rightIndex_size (h : Heap) (p : Nat) :
    (rightIndex h p).size = if RightTest h p then sub64 h.index.size 1 else h.index.size := by
  unfold rightIndex
  split <;> rfl

/-- The entry that "unify right" or "no longer exists" removes, when it is found. -/
theorem perm_removed {index : OrderedArray Nat} {a : Nat} (hs : index.size < 2 ^ 64)
    (ha : a ∈ index.toList) :
    index.toList.Perm (a :: (removeOrderedArray (indexOf a index) index).toList) := by
  obtain ⟨hi, hslot⟩ := indexOf_spec (mem_toList.1 ha)
  have hrem := perm_remove hi hs
  rwa [hslot] at hrem

end

section
variable {σ : Type} {h h' : Heap} {cs : List Chunk} {p record : Nat}

/-- An entry that is replaced by the header is the header. -/
theorem Indexed.replaced (w : Indexed h cs) {L : List Nat}
    (hb : h.index.toList.Perm (behind h p :: L)) (ha : h.index.toList.Perm (headerOf p :: L)) : False :=
  w.behind_ne (ha.mem_iff.2 List.mem_cons_self) (perm_cons_eq w.nodup hb ha)

/-- A call that has done no damage was harmless, if it has not removed from an empty index. -/
theorem Untouched.harmless (pg : KernelPages σ) (s : σ) (w : Indexed h cs) (hp : p ≠ 0)
    (hle : record ≤ h.startAddress) (hpos : ¬ LeftTest h p → RightTest h p → 0 < h.index.size)
    (hmerged : Mem.Same h.mem (mergedMem h p) record h.startAddress)
    (u : Untouched record h (free pg p h s).1) : Harmless h p record := by
  obtain ⟨-, hend, hrest⟩ := free_any (h := h) pg s hp
  obtain ⟨hm, idx, hidx, hcase⟩ := hrest u.endEq
  have hbytes := u.bytes
  have hl := u.index
  rw [hm] at hbytes
  rw [hidx] at hl
  rw [u.endEq] at hend
  have hlt := w.size_lt
  have hr := rightIndex_size h p
  have hlen : lastOf h p = h.endAddress →
      add64 h.startAddress (contractSize (sub64 (startOf h p) h.startAddress)) = h.endAddress := by
    intro hl
    exact (if_pos hl).symm.trans hend.symm
  have hsize := congrArg List.length hl
  rw [length_toList, length_toList] at hsize
  -- the sizes tell how often an entry was removed
  have hcase' : idx.size = (rightIndex h p).size ∧ idx = rightIndex h p ∧ NotGone h p ∨
      idx.size + 1 = (rightIndex h p).size ∧ indexOf (behind h p) (rightIndex h p) < (rightIndex h p).size ∧
        idx = removeOrderedArray (indexOf (behind h p) (rightIndex h p)) (rightIndex h p) := by
    rcases hcase with ⟨he, hgone⟩ | ⟨-, hi, he⟩
    · exact .inl ⟨by rw [he], he, hgone⟩
    · refine .inr ⟨?_, hi, he⟩
      have hrs : (rightIndex h p).size < 2 ^ 64 := by
        rw [hr]
        split
        · exact sub64_lt _ _
        · omega
      have hrem : idx.size = sub64 (rightIndex h p).size 1 := by rw [he]; rfl
      rw [hrem, sub64_of_le (by omega) hrs]
      omega
  generalize hri : rightIndex h p = index at *
  by_cases hleft : LeftTest h p
  · rw [if_pos hleft] at hsize
    have hnot : ¬ RightTest h p := by
      intro hright
      rw [if_pos hright] at hr
      unfold sub64 at hr
      omega
    rw [if_neg hnot] at hr
    rcases hcase' with ⟨-, -, hgone⟩ | ⟨h1, -⟩
    · exact ⟨.inl ⟨hleft, hnot⟩, hlen, hgone, hmerged, hbytes⟩
    · omega
  · rw [if_neg hleft] at hsize hl
    rw [size_insert] at hsize
    by_cases hright : RightTest h p
    · rcases hcase' with ⟨-, he, hgone⟩ | ⟨h1, -⟩
      · have hpos := hpos hleft hright
        rw [if_pos hright, sub64_of_le hpos (by omega)] at hr
        rw [he] at hl
        have hidx : index = removeOrderedArray (indexOf (behind h p) h.index) h.index :=
          hri.symm.trans (if_pos hright)
        have hperm := perm_insert (headerTLessThan (storedMem h p)) (headerOf p)
          (show index.size + 1 < 2 ^ 64 by omega)
        rw [hl] at hperm
        have hin : headerOf p ∈ h.index.toList := hperm.mem_iff.2 List.mem_cons_self
        have hnot : behind h p ∉ h.index.toList := by
          intro hb
          have hrem := perm_removed (by omega) hb
          rw [← hidx] at hrem
          exact w.replaced hrem hperm
        -- the last entry was dropped, so it was the header
        rw [indexOf_not_mem hnot] at hidx
        have hdrop := toList_remove_end hpos (show h.index.size < 2 ^ 64 by omega)
        rw [← hidx] at hdrop
        have hnil : h.index.toList ≠ [] := List.ne_nil_of_mem hin
        have hsplit := List.dropLast_concat_getLast hnil
        have hlast : h.index.toList.getLast hnil = headerOf p := by
          refine perm_cons_eq (R := h.index.toList.dropLast) w.nodup ?_ (by rwa [← hdrop])
          conv => lhs; rw [← hsplit]
          exact List.perm_append_singleton _ _
        rw [hlast, ← hdrop] at hsplit
        have hnew : headerOf p ∉ index.toList :=
          (List.nodup_cons.1 (hperm.nodup_iff.1 w.nodup)).1
        have hall := lt_of_insert_last (by omega) hnew (hl.trans hsplit.symm)
        refine ⟨.inr ⟨hleft, hright, hnot, ?_, fun a ha => ?_⟩, hlen, hgone, hmerged, hbytes⟩
        · rw [← hsplit, List.getLast?_concat]
        · rw [← hdrop] at ha
          have hless := hall a ha
          unfold headerTLessThan at hless
          rw [decide_eq_true_eq, w.listed_size hbytes hle hin, w.listed_size hbytes hle
            (hperm.mem_iff.2 (List.mem_cons_of_mem _ ha))] at hless
          exact hless
      · rw [if_pos hright] at hr
        unfold sub64 at hr
        unfold add64 at hsize
        omega
    · rw [if_neg hright] at hr
      rcases hcase' with ⟨h1, -⟩ | ⟨h1, hi, he⟩
      · unfold add64 at hsize
        omega
      · have hidx : index = h.index := hri.symm.trans (if_neg hright)
        rw [hidx] at hi he
        have hrem := perm_removed (show h.index.size < 2 ^ 64 by omega) (indexOf_lt.1 hi)
        have hperm := perm_insert (headerTLessThan (storedMem h p)) (headerOf p)
          (show idx.size + 1 < 2 ^ 64 by omega)
        rw [hl] at hperm
        rw [← he] at hrem
        exact absurd (w.replaced hrem hperm) not_false

theorem Harmless.untouched (pg : KernelPages σ) (s : σ) (w : Indexed h cs) (hp : p ≠ 0)
    (hle : record ≤ h.startAddress) (ok : Harmless h p record) :
    Untouched record h (free pg p h s).1 := by
  obtain ⟨hstart, hend, hrest⟩ := free_any (h := h) pg s hp
  have hend' : (free pg p h s).1.endAddress = h.endAddress := by
    rw [hend]
    by_cases hl : lastOf h p = h.endAddress
    · rw [if_pos hl]
      exact ok.length hl
    · exact if_neg hl
  obtain ⟨hm, idx, hidx, hcase⟩ := hrest hend'
  have hlt := w.size_lt
  have he : idx = rightIndex h p := by
    rcases hcase with ⟨he, -⟩ | ⟨hn, -⟩
    · exact he
    · exact absurd ok.notGone hn
  rw [he] at hidx
  refine ⟨hstart, hend', by rw [hm]; exact ok.stores, ?_⟩
  rw [hidx]
  rcases ok.oneTest with ⟨hleft, hnot⟩ | ⟨hleft, hright, hnot, hlast, hless⟩
  · rw [if_pos hleft]
    exact congrArg toList (if_neg hnot)
  · rw [if_neg hleft]
    have hr := rightIndex_size h p
    rw [if_pos hright] at hr
    have hmem : headerOf p ∈ h.index.toList := List.mem_of_getLast? hlast
    have hnil : h.index.toList ≠ [] := List.ne_nil_of_mem hmem
    have hpos : 0 < h.index.size := by
      rw [← length_toList]
      exact List.length_pos_of_mem hmem
    rw [sub64_of_le hpos (by omega)] at hr
    have hri : rightIndex h p = removeOrderedArray (indexOf (behind h p) h.index) h.index :=
      if_pos hright
    rw [indexOf_not_mem hnot] at hri
    have hdrop := toList_remove_end hpos (show h.index.size < 2 ^ 64 by omega)
    rw [← hri] at hdrop
    rw [toList_insert_last (by omega), hdrop]
    · have hsplit := List.dropLast_concat_getLast hnil
      rw [List.getLast?_eq_some_getLast hnil, Option.some.injEq] at hlast
      rwa [hlast] at hsplit
    · intro a ha
      rw [hdrop] at ha
      unfold headerTLessThan
      rw [decide_eq_true_eq, w.listed_size ok.stores hle hmem,
        w.listed_size ok.stores hle (List.dropLast_subset _ ha)]
      exact hless a ha

end

end Kheap
