import Jaos.Heap.Expansions
import Jaos.Heap.FreeInside

/-!
# The slots of the index

`insert_ordered_array` and `remove_ordered_array` never compare the number of entries with `max_size`.
`insertSlots` and `removeSlots` list the slots that one call reads or writes, `allocSlots` and
`freeSlots` those of all the calls that `alloc` and `free` make. Both an insertion and a removal touch
the slot behind the last entry, so a full index is overrun by any of them: `index_room_iff` says that
every call on a heap stays below `max_size` exactly when the index is not full (`RoomOk`), and
`index_overrun` fills one.

An empty index may be removed from as well: when the chunk behind the block only looks like a hole, the
number of entries wraps to `2 ^ 64 - 1`.
-/

open Lib

namespace OrderedArray

variable {α : Type}

/-- The slots `insert_ordered_array` reads or writes: those compared with the item, its place and
those moved up. -/
def insertSlots (lessThan : α → α → Bool) (item : α) (a : OrderedArray α) : List Nat :=
  let i := insertPos lessThan item a
  List.range (min (i + 1) a.size) ++ List.range' i (a.size + 1 - i)

/-- The slots `remove_ordered_array` reads or writes. -/
def removeSlots (i : Nat) (a : OrderedArray α) : List Nat :=
  (List.range' i (a.size - i)).flatMap fun j => [j + 1, j]

/-- An insertion gets as far as the slot behind the last entry. -/
theorem insertSlots_lt {lt : α → α → Bool} {item : α} {a : OrderedArray α} {m : Nat} :
    (∀ j ∈ insertSlots lt item a, j < m) ↔ a.size < m := by
  have hle := insertPos_le lt item a
  unfold insertSlots
  simp only [List.mem_append, List.mem_range, List.mem_range'_1]
  constructor
  · intro h
    exact h a.size (.inr (by omega))
  · intro h j hj
    omega

/-- So does a removal that moves anything. -/
theorem removeSlots_lt {i : Nat} {a : OrderedArray α} {m : Nat} :
    (∀ j ∈ removeSlots i a, j < m) ↔ (i < a.size → a.size < m) := by
  unfold removeSlots
  simp only [List.mem_flatMap, List.mem_range'_1, List.mem_cons, List.not_mem_nil, or_false]
  constructor
  · intro h hi
    exact h a.size ⟨a.size - 1, by omega, .inl (by omega)⟩
  · rintro h j ⟨k, hk, hj⟩
    have := h (by omega)
    omega

end OrderedArray

namespace Kheap

open OrderedArray

/-! ## The slots that `alloc` and `free` use -/

/-- `insert_ordered_array` on the index. -/
def insertIndexSlots (a : Nat) (h : Heap) : List Nat :=
  insertSlots (headerTLessThan h.mem) a h.index

/-- The insertion of a new hole after an expansion. -/
def growHoleSlots (oldEndAddress oldLength : Nat) (h : Heap) : List Nat :=
  let gained := sub64 (sub64 h.endAddress h.startAddress) oldLength
  match endmost h.index with
  | none =>
    let footer := sub64 (add64 oldEndAddress gained) sizeofFooter
    insertIndexSlots oldEndAddress
      (onMem (fun m => writeFooter footer oldEndAddress (writeHeader oldEndAddress 1 gained m)) h)
  | some _ => []

/-- The insertion of the hole behind the block. -/
def splitRearSlots (pos size newSize holeSize : Nat) (h : Heap) : List Nat :=
  let rest := sub64 holeSize newSize
  if 0 < rest then
    let hole := add64 (add64 (add64 pos sizeofHeader) size) sizeofFooter
    let h := onMem (writeHeader hole 1 rest) h
    let footer := sub64 (sub64 (add64 hole holeSize) newSize) sizeofFooter
    insertIndexSlots hole (if footer < h.endAddress then onMem (writeFooter footer hole) h else h)
  else []

/-- `alloc` from the hole at slot `iterator` of the index. -/
def allocFromSlots (size pageAlign iterator : Nat) (h : Heap) : List Nat :=
  let newSize := add64 (add64 size sizeofHeader) sizeofFooter
  let holePos := lookupOrderedArray iterator h.index
  let holeSize := sizeAt h.mem holePos
  let absorb := sub64 holeSize newSize < sizeofHeader + sizeofFooter
  let size := if absorb then add64 size (sub64 holeSize newSize) else size
  let newSize := if absorb then holeSize else newSize
  let front := pageAlign ≠ 0 ∧ add64 holePos sizeofHeader &&& 0xFFF ≠ 0
  let r := if front then splitFront holePos holeSize h
    else (holePos, holeSize, removeIndex iterator h)
  (if front then [] else removeSlots iterator h.index) ++
    splitRearSlots r.1 size newSize r.2.1 (writeBlock r.1 size newSize r.2.2)

/-- The slots of the index that `alloc` reads or writes in its insertions and removals. -/
def allocSlots {σ : Type} (pg : KernelPages σ) : (fuel : Nat) → (size pageAlign : Nat) → Heap → σ →
    List Nat
  | 0, _, _, _, _ => []
  | fuel + 1, size, pageAlign, h, s =>
    let newSize := add64 (add64 size sizeofHeader) sizeofFooter
    match findSmallestHole newSize pageAlign h with
    | none =>
      let oldLength := sub64 h.endAddress h.startAddress
      match expand pg (add64 oldLength newSize) h s with
      | none => []
      | some r => growHoleSlots h.endAddress oldLength r.1 ++
          allocSlots pg fuel size pageAlign (growHole h.endAddress oldLength r.1) r.2
    | some iterator => allocFromSlots size pageAlign iterator h

/-- The removal of the right neighbour. -/
def freeRightSlots (footer : Nat) (h : Heap) : List Nat :=
  let testHeader := add64 footer sizeofFooter
  if magicAt h.mem testHeader = heapMagic ∧ isHoleAt h.mem testHeader ≠ 0 then
    removeSlots (indexOf testHeader h.index) h.index
  else []

/-- The removal of a hole that is gone with the contraction. -/
def freeContractSlots {σ : Type} (pg : KernelPages σ) (header footer testHeader : Nat) (h : Heap)
    (s : σ) : List Nat :=
  if add64 footer sizeofFooter = h.endAddress then
    let oldLength := sub64 h.endAddress h.startAddress
    let r := contract pg (sub64 header h.startAddress) h s
    let h := r.2.1
    if 0 < sub64 (sizeAt h.mem header) (sub64 oldLength r.1) then []
    else
      let iterator := indexOf testHeader h.index
      if iterator < h.index.size then removeSlots iterator h.index else []
  else []

/-- From "Unify left" on. -/
def freeMergeSlots {σ : Type} (pg : KernelPages σ) (header footer : Nat) (h : Heap) (s : σ) :
    List Nat :=
  let l := freeLeft header footer h
  let r := freeRight l.1 footer l.2.2
  let c := freeContract pg l.1 r.1 (add64 footer sizeofFooter) r.2 s
  freeRightSlots footer l.2.2 ++
    (freeContractSlots pg l.1 r.1 (add64 footer sizeofFooter) r.2 s ++
      if l.2.1 then insertIndexSlots l.1 c.1 else [])

/-- The slots of the index that `free` reads or writes in its insertions and removals. -/
def freeSlots {σ : Type} (pg : KernelPages σ) (p : Nat) (h : Heap) (s : σ) : List Nat :=
  if p = 0 then []
  else
    let header := sub64 p sizeofHeader
    let footer := sub64 (add64 header (sizeAt h.mem header)) sizeofFooter
    let h := putsIf (magicAt h.mem header ≠ heapMagic) "free: header magic bad\n" h
    let h := putsIf (magicAt h.mem footer ≠ heapMagic) "free: footer magic bad\n" h
    freeMergeSlots pg header footer (onMem (setIsHole header 1) h) s

section
variable {σ : Type} (pg : KernelPages σ)

/-- A call of `alloc` uses slots below `max_size` only and leaves no more entries than that. -/
def AllocBelow (size pageAlign : Nat) (h : Heap) (s : σ) : Prop :=
  ∀ fuel, (∀ j ∈ allocSlots pg fuel size pageAlign h s, j < h.index.maxSize) ∧
    ∀ p h' s', alloc pg fuel size pageAlign h s = some (p, h', s') →
      h'.index.size ≤ h'.index.maxSize

/-- So does a call of `free`. -/
def FreeBelow (p : Nat) (h : Heap) (s : σ) : Prop :=
  (∀ j ∈ freeSlots pg p h s, j < h.index.maxSize) ∧
    (free pg p h s).1.index.size ≤ (free pg p h s).1.index.maxSize

/-- The condition (module doc). -/
structure RoomOk (h : Heap) (cs : List Chunk) : Prop where
  room : h.index.size < h.index.maxSize
  empty : h.index.size = 0 → ∀ c ∈ cs, ¬ takesRight h (c.addr + 16)

end

/-! ## `alloc` -/

section
variable {σ : Type} {pg : KernelPages σ} {h g : Heap} {m size pageAlign i : Nat}

theorem splitRear_room {index : OrderedArray Nat} (pos size newSize holeSize : Nat)
    (hg : g.index = index) (hs : index.size < m) (hm : m < 2 ^ 64) :
    (∀ j ∈ splitRearSlots pos size newSize holeSize g, j < m) ∧
      (splitRear pos size newSize holeSize g).index.size ≤ m ∧
      (splitRear pos size newSize holeSize g).index.maxSize = index.maxSize := by
  have insert : ∀ (a : Nat) (k : Heap), k.index = index →
      (∀ j ∈ insertIndexSlots a k, j < m) ∧ (insertIndex a k).index.size ≤ m ∧
        (insertIndex a k).index.maxSize = index.maxSize := by
    intro a k hk
    unfold insertIndexSlots
    rw [insertSlots_lt, insertIndex_index, maxSize_insert, size_insert, hk, add64_of_lt (by omega)]
    exact ⟨hs, by omega, rfl⟩
  unfold splitRearSlots splitRear
  dsimp only
  by_cases hrest : 0 < sub64 holeSize newSize
  · rw [if_pos hrest, if_pos hrest]
    refine insert _ _ ?_
    split <;> exact hg
  · rw [if_neg hrest, if_neg hrest, hg]
    exact ⟨by simp, by omega, rfl⟩

/-- **The placement** in an index that is not full. -/
theorem allocFrom_room (hi : i < h.index.size) (hs : h.index.size < m) (hm : m < 2 ^ 64) :
    (∀ j ∈ allocFromSlots size pageAlign i h, j < m) ∧
      (allocFrom size pageAlign i h).2.index.size ≤ m ∧
      (allocFrom size pageAlign i h).2.index.maxSize = h.index.maxSize := by
  have hsplit : ∀ pos n, (splitFront pos n h).2.2.index = h.index := fun _ _ => rfl
  have hblock : ∀ pos n k (g : Heap), (writeBlock pos n k g).index = g.index := fun _ _ _ _ => rfl
  unfold allocFromSlots allocFrom
  dsimp only
  generalize (if _ < sizeofHeader + sizeofFooter then add64 size _ else size : Nat) = size'
  by_cases hfront : pageAlign ≠ 0 ∧ add64 (lookupOrderedArray i h.index) sizeofHeader &&& 0xFFF ≠ 0
  · rw [if_pos hfront, if_pos hfront, List.nil_append]
    exact splitRear_room _ _ _ _ ((hblock _ _ _ _).trans (hsplit _ _)) hs hm
  · have hle := remove_size_le hi (Nat.lt_trans hs hm)
    rw [if_neg hfront, if_neg hfront]
    obtain ⟨h1, h2, h3⟩ := splitRear_room _ _ _ _
      ((hblock _ _ _ _).trans (removeIndex_index (a := i) (h := h))) (show (removeOrderedArray i h.index).size < m by omega) hm
    refine ⟨fun j hj => ?_, h2, h3⟩
    rcases List.mem_append.1 hj with hj | hj
    · exact removeSlots_lt.2 (fun _ => hs) j hj
    · exact h1 j hj

/-- An index that is not full and lists no header at address 0. -/
structure Roomy (m : Nat) (h : Heap) : Prop where
  room : h.index.size < m
  slots : ∀ i < h.index.size, 0 < h.index.array i
  endPos : h.index.size = 0 → 0 < h.endAddress

theorem WellFormed.roomy {cs : List Chunk} (w : WellFormed h cs) (hroom : h.index.size < m) :
    Roomy m h := by
  have hlow := w.startLow
  have hle := w.tiles.le
  refine ⟨hroom, fun i hi => ?_, fun _ => by omega⟩
  obtain ⟨c, hc, -, ha⟩ := w.slot hi
  have := (w.bounds hc).1
  omega

/-- **One expansion**: the first hole of an empty index is the only insertion. -/
theorem Roomy.grow (y : Roomy m h) (hm : 1 < m) (hindex : g.index = h.index) (len : Nat) :
    (∀ j ∈ growHoleSlots h.endAddress len g, j < m) ∧
      Roomy m (growHole h.endAddress len g) ∧
      (growHole h.endAddress len g).index.maxSize = h.index.maxSize := by
  rcases he : endmost g.index with _ | i
  · have hzero : g.index.size = 0 := by
      rw [hindex] at he ⊢
      refine Nat.eq_zero_of_not_pos fun hpos => ?_
      have h1 := y.slots 0 hpos
      have h2 := endmost_none he 0 hpos
      omega
    have hl : (growHole h.endAddress len g).index.toList = [h.endAddress] :=
      growHole_index_none he hzero
    have hone := congrArg List.length hl
    rw [length_toList, List.length_singleton] at hone
    refine ⟨?_, ⟨by omega, fun i hi => ?_, fun h => by omega⟩, ?_⟩
    · unfold growHoleSlots
      simp only [he]
      unfold insertIndexSlots
      rw [insertSlots_lt, onMem_index]
      omega
    · have ha := array_mem hi
      rw [hl, List.mem_singleton] at ha
      rw [ha]
      exact y.endPos (by rwa [← hindex])
    · unfold growHole
      simp only [he]
      rw [insertIndex_index, maxSize_insert, onMem_index, hindex]
  · have hsame : (growHole h.endAddress len g).index = h.index :=
      (growHole_index_some he).trans hindex
    have hi := endmost_lt he
    rw [hindex] at hi
    unfold growHoleSlots
    simp only [he]
    refine ⟨by simp, ⟨?_, ?_, ?_⟩, by rw [hsame]⟩
    · rw [hsame]
      exact y.room
    · rw [hsame]
      exact y.slots
    · rw [hsame]
      omega

/-- **A whole call**, by induction on the retries. -/
theorem Roomy.alloc (hm : 1 < m) (hm' : m < 2 ^ 64) (fuel : Nat) :
    ∀ (h : Heap) (s : σ), Roomy m h →
      (∀ j ∈ allocSlots pg fuel size pageAlign h s, j < m) ∧
        ∀ p h' s', alloc pg fuel size pageAlign h s = some (p, h', s') →
          h'.index.size ≤ m ∧ h'.index.maxSize = h.index.maxSize := by
  induction fuel with
  | zero => exact fun h s _ => ⟨by simp [allocSlots], fun p h' s' ha => by cases ha⟩
  | succ fuel ih =>
    intro h s y
    unfold allocSlots Kheap.alloc
    dsimp only
    rcases hf : findSmallestHole (add64 (add64 size sizeofHeader) sizeofFooter) pageAlign h with _ | i
    · dsimp only
      rcases he : expand pg (add64 (sub64 h.endAddress h.startAddress)
        (add64 (add64 size sizeofHeader) sizeofFooter)) h s with _ | r
      · exact ⟨by simp, fun p h' s' ha => by cases ha⟩
      · obtain ⟨-, hindex, -⟩ := expand_some he
        obtain ⟨h1, y', hmax⟩ := y.grow hm hindex (sub64 h.endAddress h.startAddress)
        obtain ⟨h2, h3⟩ := ih _ r.2 y'
        rw [hmax] at h3
        refine ⟨fun j hj => ?_, h3⟩
        rcases List.mem_append.1 hj with hj | hj
        · exact h1 j hj
        · exact h2 j hj
    · obtain ⟨hi, -, -⟩ := find_some hf
      obtain ⟨h1, h2, h3⟩ := allocFrom_room hi y.room hm'
      refine ⟨h1, fun p h' s' ha => ?_⟩
      simp only [Option.some.injEq, Prod.mk.injEq] at ha
      obtain ⟨-, rfl, -⟩ := ha
      exact ⟨h2, h3⟩

/-- A full index is overrun by the smallest plain allocation. -/
theorem WellFormed.alloc_full {cs : List Chunk} (w : WellFormed h cs) (s : σ)
    (hfull : h.index.size = h.index.maxSize) (hpos : 0 < h.index.size) :
    h.index.maxSize ∈ allocSlots pg 1 0 0 h s := by
  obtain ⟨c, hc, hhole, -⟩ := w.slot hpos
  obtain ⟨i, hi⟩ := w.find ⟨c, hc, hhole, w.min c hc⟩
  obtain ⟨hlt, -, -⟩ := find_some hi
  have hslot : h.index.maxSize ∈ removeSlots i h.index := by
    rw [← hfull]
    refine List.mem_flatMap.2 ⟨h.index.size - 1, ?_, ?_⟩
    · rw [List.mem_range'_1]
      omega
    · rw [List.mem_cons]
      omega
  have hnew : add64 (add64 0 sizeofHeader) sizeofFooter = 32 := by decide
  unfold allocSlots
  simp only [hnew, hi]
  unfold allocFromSlots
  dsimp only
  rw [if_neg (by simp)]
  exact List.mem_append_left _ hslot

end

/-! ## `free` -/

section
variable {σ : Type} {h : Heap} {l r : List Chunk} {c : Chunk}

theorem freeContract_slots (pg : KernelPages σ) (header footer testHeader : Nat) (h : Heap) (s : σ) :
    (freeContractSlots pg header footer testHeader h s = [] ∧
        (freeContract pg header footer testHeader h s).1.index = h.index) ∨
      (add64 footer sizeofFooter = h.endAddress ∧ testHeader ∈ h.index.toList ∧
        freeContractSlots pg header footer testHeader h s =
          removeSlots (indexOf testHeader h.index) h.index ∧
        (freeContract pg header footer testHeader h s).1.index =
          removeOrderedArray (indexOf testHeader h.index) h.index) := by
  unfold freeContractSlots freeContract
  dsimp only
  obtain ⟨k, t, hk, -, hidx, -, -⟩ := contract_eq pg (sub64 header h.startAddress) h s
  rw [hk]
  dsimp only
  by_cases hend : add64 footer sizeofFooter = h.endAddress
  · rw [if_pos hend, if_pos hend]
    split
    · exact .inl ⟨rfl, hidx⟩
    · dsimp only
      rw [hidx]
      by_cases hin : indexOf testHeader h.index < h.index.size
      · rw [if_pos hin, if_pos hin]
        refine .inr ⟨hend, ?_, rfl, by rw [removeIndex_index, hidx]⟩
        refine Decidable.byContradiction fun hn => ?_
        rw [indexOf_not_mem hn] at hin
        omega
      · rw [if_neg hin, if_neg hin]
        exact .inl ⟨rfl, hidx⟩
  · rw [if_neg hend, if_neg hend]
    exact .inl ⟨rfl, rfl⟩

theorem Layout.freeSlots_eq (pg : KernelPages σ) (s : σ) (w : Layout h (l ++ c :: r)) :
    ∃ g, free pg (c.addr + 16) h s = freeMerge pg c.addr (c.fin - 16) g s ∧
      freeSlots pg (c.addr + 16) h s = freeMergeSlots pg c.addr (c.fin - 16) g s ∧
      g.mem = setIsHole c.addr 1 h.mem ∧ g.index = h.index ∧ g.endAddress = h.endAddress := by
  obtain ⟨hheader, hfooter⟩ := w.block_tags
  unfold free freeSlots
  rw [if_neg (Nat.succ_ne_zero _), if_neg (Nat.succ_ne_zero _)]
  simp only [hheader, hfooter]
  refine ⟨_, rfl, rfl, ?_⟩
  unfold putsIf puts
  split <;> split <;> exact ⟨rfl, rfl, rfl⟩

/-- **The calls on the index** that `free` makes: `idx` is the index before the last one. -/
theorem Layout.free_slots (pg : KernelPages σ) (s : σ) (w : Layout h (l ++ c :: r)) :
    ∃ idx lt gone, ((gone = [] ∧ idx = unifiedIndex h (c.addr + 16)) ∨
        ((takesRight h (c.addr + 16) ∨ c.fin = h.endAddress) ∧
          c.fin ∈ (unifiedIndex h (c.addr + 16)).toList ∧
          idx.size = sub64 (unifiedIndex h (c.addr + 16)).size 1)) ∧
      freeSlots pg (c.addr + 16) h s =
        (if takesRight h (c.addr + 16) then removeSlots (indexOf c.fin h.index) h.index else []) ++
          (gone ++ if leftHeader h (c.addr + 16) = none then insertSlots lt c.addr idx else []) ∧
      (free pg (c.addr + 16) h s).1.index =
        if leftHeader h (c.addr + 16) = none then insertOrderedArray lt c.addr idx else idx := by
  have hlt := w.chunk_lt (c := c) (by simp)
  have hmin := w.min c (by simp)
  have hfin : c.fin = c.addr + c.size := rfl
  have htest : add64 (c.fin - 16) sizeofFooter = c.fin := by
    dsimp only [sizeofFooter]
    rw [add64_of_lt (by omega)]
    omega
  obtain ⟨g, hfree, hslots, hmem, hindex, hend⟩ := w.freeSlots_eq pg s
  obtain ⟨f, k, q, u, hk, hunified, hkend, hf, hq, hmerge⟩ := w.merge_steps pg s hmem hindex hend
  have hcon := freeContract_slots pg (mergedStart h (c.addr + 16)) f c.fin k s
  rw [hq, hunified, hkend] at hcon
  have hright : freeRightSlots (c.fin - 16) (onMem (fun _ => unifiedMem h (c.addr + 16)) g) =
      if takesRight h (c.addr + 16) then removeSlots (indexOf c.fin h.index) h.index else [] := by
    have htake : takesRight h (c.addr + 16) ↔
        magicAt (unifiedMem h (c.addr + 16)) c.fin = heapMagic ∧
          isHoleAt (unifiedMem h (c.addr + 16)) c.fin ≠ 0 := by
      unfold takesRight
      rw [w.blockEnd_eq]
    unfold freeRightSlots
    rw [htest, onMem_mem, onMem_index, hindex]
    by_cases ht : takesRight h (c.addr + 16)
    · rw [if_pos ht, if_pos (htake.1 ht)]
    · rw [if_neg ht, if_neg fun hn => ht (htake.2 hn)]
  have hslots' : freeMergeSlots pg c.addr (c.fin - 16) g s =
      (if takesRight h (c.addr + 16) then removeSlots (indexOf c.fin h.index) h.index else []) ++
        (freeContractSlots pg (mergedStart h (c.addr + 16)) f c.fin k s ++
          if leftHeader h (c.addr + 16) = none then insertIndexSlots c.addr q else []) := by
    unfold freeMergeSlots
    simp only [w.freeLeft_eq hmem, hk, htest, hq, ← hright]
    by_cases hn : leftHeader h (c.addr + 16) = none
    · have hstart : mergedStart h (c.addr + 16) = c.addr := by
        unfold mergedStart
        rw [hn]
        rfl
      simp only [Option.isNone_iff_eq_none, if_pos hn, hstart]
    · simp only [Option.isNone_iff_eq_none, if_neg hn]
  refine ⟨q.index, headerTLessThan q.mem, _, ?_, hslots.trans hslots', ?_⟩
  · rcases hcon with ⟨hnil, hidx⟩ | ⟨hfoot, hin, -, hidx⟩
    · exact .inl ⟨hnil, hidx⟩
    · refine .inr ⟨?_, hin, ?_⟩
      · rcases hf with ht | rfl
        · exact .inl ht
        · exact .inr (htest.symm.trans hfoot)
      · rw [show q.index = _ from hidx]
        rfl
  · rw [hfree, hmerge]
    split <;> rfl

/-- What was found next to the block, or would have to be behind the heap, is not in the index when it
is looked for once more. -/
theorem Indexed.fin_gone (w : Indexed h (l ++ c :: r)) (hpos : takesRight h (c.addr + 16) → 0 < h.index.size)
    (hcase : takesRight h (c.addr + 16) ∨ c.fin = h.endAddress) :
    c.fin ∉ (unifiedIndex h (c.addr + 16)).toList := by
  have hsize := Nat.lt_trans w.size_lt (show 2 ^ 59 < 2 ^ 64 by decide)
  intro hin
  unfold unifiedIndex at hin
  rw [w.blockEnd_eq] at hin
  by_cases ht : takesRight h (c.addr + 16)
  · rw [if_pos ht] at hin
    by_cases hlist : c.fin ∈ h.index.toList
    · obtain ⟨hi, hslot⟩ := indexOf_spec (mem_toList.1 hlist)
      exact (w.remove_ne hi hin).2 hslot.symm
    · rw [indexOf_not_mem hlist, toList_remove_end (hpos ht) hsize] at hin
      exact hlist (List.dropLast_subset _ hin)
  · rw [if_neg ht] at hin
    obtain ⟨d, hd, -, ha⟩ := mem_holes.1 (w.index.mem_iff.1 hin)
    have h1 := w.bounds hd
    have h2 := w.min d hd
    have h3 : d.fin = d.addr + d.size := rfl
    have h4 := hcase.resolve_left ht
    omega

theorem Layout.free_maxSize (pg : KernelPages σ) (s : σ) (w : Layout h (l ++ c :: r)) :
    (free pg (c.addr + 16) h s).1.index.maxSize = h.index.maxSize := by
  obtain ⟨idx, lt, hidx, hfree⟩ := w.free_index pg s
  have hu : (unifiedIndex h (c.addr + 16)).maxSize = h.index.maxSize := by
    unfold unifiedIndex
    split
    · rw [maxSize_remove]
    · rfl
  have hone : idx.maxSize = h.index.maxSize := by
    rcases hidx with he | ⟨-, he⟩
    · rw [he, hu]
    · rw [he, maxSize_remove, hu]
  rw [hfree]
  split
  · rw [maxSize_insert, hone]
  · exact hone

/-- The condition on one call of `free`. -/
structure FreeRoom (h : Heap) (p : Nat) : Prop where
  right : takesRight h p →
    0 < h.index.size ∧ (blockEnd h p ∈ h.index.toList → h.index.size < h.index.maxSize)
  alone : ¬ takesRight h p → leftHeader h p = none → h.index.size < h.index.maxSize

/-- The last step, an insertion or nothing. -/
theorem insert_below_iff {n : Prop} [Decidable n] {lt : Nat → Nat → Bool} {a m : Nat}
    {index : OrderedArray Nat} (hm : m < 2 ^ 64 - 2) :
    ((∀ j ∈ (if n then insertSlots lt a index else []), j < m) ∧
      (if n then insertOrderedArray lt a index else index).size ≤ m) ↔
      index.size ≤ m ∧ (n → index.size < m) := by
  by_cases hn : n
  · rw [if_pos hn, if_pos hn, insertSlots_lt, size_insert]
    constructor
    · rintro ⟨hlt, -⟩
      exact ⟨by omega, fun _ => hlt⟩
    · rintro ⟨-, hlt⟩
      have := hlt hn
      rw [add64_of_lt (by omega)]
      exact ⟨by omega, by omega⟩
  · rw [if_neg hn, if_neg hn]
    exact ⟨fun h => ⟨h.2, fun h => absurd h hn⟩, fun h => ⟨by simp, h.1⟩⟩

/-- **One call of `free`** stays below `max_size` if and only if `FreeRoom` holds. -/
theorem Indexed.free_below_iff (pg : KernelPages σ) (s : σ) (w : Indexed h (l ++ c :: r))
    (hsize : h.index.size ≤ h.index.maxSize) (hmax : h.index.maxSize < 2 ^ 64 - 2) :
    FreeBelow pg (c.addr + 16) h s ↔ FreeRoom h (c.addr + 16) := by
  obtain ⟨idx, lt, gone, hidx, hslots, hfree⟩ := w.free_slots pg s
  have hu : (unifiedIndex h (c.addr + 16)).size =
      if takesRight h (c.addr + 16) then sub64 h.index.size 1 else h.index.size := by
    unfold unifiedIndex
    split <;> rfl
  have hgone := w.fin_gone
  have hiff : FreeBelow pg (c.addr + 16) h s ↔
      (takesRight h (c.addr + 16) → c.fin ∈ h.index.toList → h.index.size < h.index.maxSize) ∧
        (∀ j ∈ gone, j < h.index.maxSize) ∧ idx.size ≤ h.index.maxSize ∧
        (leftHeader h (c.addr + 16) = none → idx.size < h.index.maxSize) := by
    unfold FreeBelow
    rw [hslots, w.free_maxSize pg s, hfree, ← insert_below_iff hmax]
    simp only [List.forall_mem_append, and_assoc]
    refine and_congr_left fun _ => ?_
    by_cases ht : takesRight h (c.addr + 16)
    · rw [if_pos ht, removeSlots_lt]
      constructor
      · intro hroom _ hin
        exact hroom (indexOf_spec (mem_toList.1 hin)).1
      · intro hroom hi
        refine hroom ht (Decidable.byContradiction fun hn => ?_)
        rw [indexOf_not_mem hn] at hi
        omega
    · rw [if_neg ht]
      exact ⟨fun _ h => absurd h ht, fun _ => by simp⟩
  rw [hiff]
  by_cases ht : takesRight h (c.addr + 16)
  · rw [if_pos ht] at hu
    constructor
    · rintro ⟨hroom, -, hle, -⟩
      refine ⟨fun _ => ⟨Nat.pos_of_ne_zero fun hzero => ?_, ?_⟩, fun hn => absurd ht hn⟩
      · -- the number of entries has wrapped
        have h1 : sub64 0 1 = 2 ^ 64 - 1 := by decide
        have h2 : sub64 (2 ^ 64 - 1) 1 = 2 ^ 64 - 2 := by decide
        rw [hzero, h1] at hu
        rcases hidx with ⟨-, he⟩ | ⟨-, -, he⟩
        · rw [he, hu] at hle
          omega
        · rw [he, hu, h2] at hle
          omega
      · rw [w.blockEnd_eq]
        exact hroom ht
    · intro hok
      obtain ⟨hpos, hroom⟩ := hok.right ht
      rw [w.blockEnd_eq] at hroom
      obtain ⟨hnil, he⟩ := hidx.resolve_right fun hx => hgone (fun _ => hpos) hx.1 hx.2.1
      have hlt := w.size_lt
      rw [sub64_of_le hpos (by omega)] at hu
      rw [hnil, he, hu]
      exact ⟨fun _ => hroom, by simp, by omega, fun _ => by omega⟩
  · rw [if_neg ht] at hu
    constructor
    · rintro ⟨-, -, -, hlast⟩
      refine ⟨fun h => absurd h ht, fun _ hn => ?_⟩
      obtain ⟨-, he⟩ := hidx.resolve_right fun hx => hgone (fun h => absurd h ht) hx.1 hx.2.1
      have := hlast hn
      rwa [he, hu] at this
    · intro hok
      obtain ⟨hnil, he⟩ := hidx.resolve_right fun hx => hgone (fun h => absurd h ht) hx.1 hx.2.1
      rw [hnil, he, hu]
      exact ⟨fun h => absurd h ht, by simp, hsize, hok.alone ht⟩

/-- **The calls on a heap stay below `max_size` if and only if `RoomOk` holds.** -/
theorem index_room_iff {cs : List Chunk} (pg : KernelPages σ) (s : σ) (w : WellFormed h cs)
    (hsize : h.index.size ≤ h.index.maxSize) (hmin : 1 < h.index.maxSize)
    (hmax : h.index.maxSize < 2 ^ 64 - 2) :
    ((∀ size pageAlign, AllocBelow pg size pageAlign h s) ∧
      ∀ c ∈ cs, c.tag = true → FreeBelow pg (c.addr + 16) h s) ↔ RoomOk h cs := by
  have hfree : ∀ c ∈ cs, FreeBelow pg (c.addr + 16) h s ↔ FreeRoom h (c.addr + 16) := by
    intro c hc
    obtain ⟨l, r, rfl⟩ := List.append_of_mem hc
    exact w.free_below_iff pg s hsize hmax
  constructor
  · rintro ⟨halloc, hfrees⟩
    refine ⟨Nat.lt_of_le_of_ne hsize fun hfull => ?_, fun hzero c hc ht => ?_⟩
    · have := (halloc 0 0 1).1 _ (w.alloc_full s hfull (by omega))
      omega
    · have hused : c.tag = true := by
        rcases hct : c.tag with _ | _
        · obtain ⟨i, hi, -⟩ := w.slot_of hc hct
          omega
        · rfl
      have hroom : FreeRoom h (c.addr + 16) := (hfree c hc).1 (hfrees c hc hused)
      have := (hroom.right ht).1
      omega
  · intro hok
    refine ⟨fun size pageAlign fuel => ?_, fun c hc _ => (hfree c hc).2 ?_⟩
    · obtain ⟨h1, h2⟩ := Roomy.alloc hmin (by omega) fuel h s (w.roomy hok.room)
      refine ⟨h1, fun p h' s' ha => ?_⟩
      obtain ⟨h3, h4⟩ := h2 p h' s' ha
      omega
    · refine ⟨fun ht => ⟨Nat.pos_of_ne_zero fun hz => ?_, fun _ => hok.room⟩, fun _ _ => hok.room⟩
      exact hok.empty hz c hc ht

end

/-- The heap `kheap_init` makes, which has one hole. -/
theorem index_room_sys0 :
    (∀ size pageAlign, AllocBelow bumpPages size pageAlign sys0.heap 0) ∧
      ∀ c ∈ [(⟨0xC0019000, 0x17000, false⟩ : Chunk)], c.tag = true →
        FreeBelow bumpPages (c.addr + 16) sys0.heap 0 :=
  (index_room_iff bumpPages 0 sys0_wellFormed (by decide) (by decide)
    (by decide)).2 ⟨by decide, fun h => absurd h (by decide)⟩

/-! ## A full index -/

section
variable {h : Heap} {s : Nat} {l r : List Chunk} {u v c : Chunk}

/-- The only hole among blocks in use. -/
theorem only_hole {l' r' : List Chunk} {d : Chunk} (he : l ++ c :: r = l' ++ d :: r')
    (hused : ∀ e, e ∈ l ∨ e ∈ r → e.tag = true) (hd : d.tag = false) : l = l' ∧ c = d ∧ r = r' := by
  rcases List.append_eq_append_iff.1 he with ⟨m, rfl, hm⟩ | ⟨m, rfl, hm⟩
  · cases m with
    | nil => simpa using hm
    | cons e m =>
      rw [List.cons_append, List.cons.injEq] at hm
      have := hused d (.inr (by rw [hm.2]; simp))
      rw [hd] at this
      cases this
  · cases m with
    | nil =>
      obtain ⟨rfl, rfl⟩ : d = c ∧ r' = r := by simpa using hm
      simp
    | cons e m =>
      rw [List.cons_append, List.cons.injEq] at hm
      have := hused d (.inl (by rw [hm.1]; simp))
      rw [hd] at this
      cases this

/-- The smallest block from the only hole. -/
theorem WellFormed.take_smallest {a n : Nat} (w : WellFormed h (l ++ ⟨a, n, false⟩ :: r))
    (hused : ∀ d, d ∈ l ∨ d ∈ r → d.tag = true) (hn : 64 ≤ n) (pg : KernelPages Nat) :
    ∃ h', alloc pg 1 0 0 h s = some (a + 16, h', s) ∧
      WellFormed h' ((l ++ [⟨a, 32, true⟩]) ++ ⟨a + 32, n - 32, false⟩ :: r) ∧
      h'.index.maxSize = h.index.maxSize ∧ h'.endAddress = h.endAddress := by
  obtain ⟨i, hi⟩ := w.find ⟨⟨a, n, false⟩, by simp, rfl, show 0 + 32 ≤ n by omega⟩
  obtain ⟨l', c, r', hcs, hhole, hslot, -, -, -, heq, g⟩ := w.plainCut (by decide) hi
  obtain ⟨rfl, rfl, rfl⟩ := only_hole hcs hused hhole
  have hcut : cutSize 0 a (a + n) = 32 := if_neg (by omega)
  have hgap : gap (a + 32) (a + n) = [⟨a + 32, n - 32, false⟩] := by
    unfold gap
    rw [if_neg (by omega), Nat.add_sub_add_left]
  have hfin : Seg.fin (⟨a, n, false⟩ : Chunk) = a + n := rfl
  have halloc := alloc_found pg 0 s (by decide) hi
  have hmax : (Kheap.allocFrom 0 0 i h).2.index.maxSize = h.index.maxSize :=
    (allocFrom_room hslot (Nat.lt_succ_self h.index.size)
      (Nat.lt_of_le_of_lt w.size_lt (by decide))).2.2
  have w' := g.wellFormed
  have hend := g.endEq
  rw [hfin] at heq w' hend
  dsimp only at heq w' hend
  rw [hcut] at heq w' hend
  rw [hgap] at w'
  rw [heq] at halloc hmax
  refine ⟨_, halloc, ?_, hmax, hend⟩
  simpa using w'

/-- A block between two others becomes a hole of its own, and the index gets one more entry. -/
theorem WellFormed.free_between (w : WellFormed h (l ++ [u] ++ c :: v :: r)) (hu : u.tag = true)
    (hc : c.tag = true) (hv : v.tag = true) (pg : KernelPages Nat) :
    (free pg (c.addr + 16) h s).1.index.size = h.index.size + 1 ∧
      (h.index.size ≠ h.index.maxSize →
        WellFormed (free pg (c.addr + 16) h s).1 (l ++ [u] ++ ⟨c.addr, c.size, false⟩ :: v :: r) ∧
        (free pg (c.addr + 16) h s).1.endAddress = h.endAddress) := by
  have hleft : leftHeader h (c.addr + 16) = none := by
    rw [w.leftHeader_eq, hu]
    rfl
  have hright : ¬ rightHole h (c.addr + 16) := by
    rw [w.rightHole_iff fun hr => by cases hr]
    rintro ⟨d, R, hd, ht⟩
    rw [(List.cons.inj hd).1, ht] at hv
    cases hv
  have hjoin : ∀ L m R, Joined (l ++ [u]) c (v :: r) L m R →
      L = l ++ [u] ∧ m = ⟨c.addr, c.size, false⟩ ∧ R = v :: r := by
    intro L m R j
    have hL : L = l ++ [u] ∧ m.addr = c.addr := by
      rcases j.left with ⟨hL, ha, -⟩ | ⟨d, hL, ht, -⟩
      · exact ⟨hL.symm, ha⟩
      · rw [← (List.cons.inj (List.append_inj' hL rfl).2).1, hu] at ht
        cases ht
    have hR : R = v :: r ∧ m.fin = c.fin := by
      rcases j.right with ⟨hR, ha, -⟩ | ⟨d, hR, ht, -⟩
      · exact ⟨hR.symm, ha⟩
      · rw [← (List.cons.inj hR).1, hv] at ht
        cases ht
    obtain ⟨a, n, t⟩ := m
    have htag : t = false := j.hole
    have haddr : a = c.addr := hL.2
    have hsize : a + n = c.addr + c.size := hR.2
    refine ⟨hL.1, ?_, hR.1⟩
    rw [htag, haddr, show n = c.size by omega]
  have hend : ∀ L m R, Joined (l ++ [u]) c (v :: r) L m R → m.fin ≠ h.endAddress := by
    intro L m R j
    obtain ⟨-, rfl, -⟩ := hjoin L m R j
    have h1 := w.tiles.next
    have h2 := w.bounds (c := v) (by simp)
    have h3 := w.min v (by simp)
    have h4 : v.fin = v.addr + v.size := rfl
    show c.fin ≠ _
    omega
  obtain ⟨hnil, hfin, hdfin⟩ := w.behind hend
  have hne := w.merged_ne hnil hfin hdfin
  have hleftNone : c.addr = h.startAddress → leftHeader h (c.addr + 16) = none := fun _ => hleft
  obtain ⟨L, R, g⟩ := w.toIndexed.merged pg s hc (w.left_chunk hleftNone) (fun hr => absurd hr hnil)
    fun he => absurd he hne
  refine ⟨?_, fun hroom => ?_⟩
  · have hi := g.index
    have hlt := w.size_lt
    unfold mergedIndex at hi
    rw [if_pos hleft, if_neg hright] at hi
    rw [hi, size_insert, add64_of_lt (by omega)]
  · obtain ⟨L, m, R, j, w', -, hend', -⟩ :=
      RestoreOk.restored pg s w hc hend ⟨hright, fun _ => hleft, fun _ => hroom⟩
    obtain ⟨rfl, rfl, rfl⟩ := hjoin L m R j
    exact ⟨w', hend'⟩

/-- The chunk is a live block. -/
def Live (s : Sys Nat) (c : Chunk) : Prop := c.tag = true ∧ ∃ b ∈ s.live, b.p = c.addr + 16

/-- **The hole is filled up** with the smallest blocks. -/
theorem fill_run {s : Sys Nat} {a n k : Nat} (hs : Reach Init (Step bumpPages) s)
    (w : WellFormed s.heap (⟨a, n, false⟩ :: r)) (hr : ∀ d ∈ r, d.tag = true) (hk : 32 * k + 32 ≤ n) :
    ∃ s' bs, Reach Init (Step bumpPages) s' ∧
      WellFormed s'.heap (bs ++ ⟨a + 32 * k, n - 32 * k, false⟩ :: r) ∧ bs.length = k ∧
      (∀ c ∈ bs, Live s' c) ∧ s'.heap.index.maxSize = s.heap.index.maxSize ∧
      s'.heap.endAddress = s.heap.endAddress := by
  induction k with
  | zero => exact ⟨s, [], hs, w, rfl, by simp, rfl, rfl⟩
  | succ k ih =>
    obtain ⟨s', bs, hs', w', hlen, hlive, hmax, hend⟩ := ih (by omega)
    have hused : ∀ d, d ∈ bs ∨ d ∈ r → d.tag = true := by
      rintro d (hd | hd)
      · exact (hlive d hd).1
      · exact hr d hd
    obtain ⟨h', ha, w2, hmax2, hend2⟩ := w'.take_smallest (s := s'.pages) hused (by omega) bumpPages
    refine ⟨_, bs ++ [⟨a + 32 * k, 32, true⟩], hs'.next (.alloc ha), ?_, by simp [hlen],
      fun c hc => ?_, hmax2.trans hmax, hend2.trans hend⟩
    · rw [Nat.add_assoc, Nat.sub_sub] at w2
      exact w2
    · rcases List.mem_append.1 hc with hc | hc
      · obtain ⟨hu, b, hb, hp⟩ := hlive c hc
        exact ⟨hu, b, List.mem_cons_of_mem _ hb, hp⟩
      · rw [List.mem_singleton.1 hc]
        exact ⟨rfl, _, List.mem_cons_self, rfl⟩

/-- **Every other block is freed**: none of the new holes meets another one. -/
theorem spread_run (j : Nat) : ∀ {s : Sys Nat} {l B r : List Chunk} {u : Chunk},
    Reach Init (Step bumpPages) s → WellFormed s.heap (l ++ [u] ++ (B ++ r)) → u.tag = true →
    B.length = 2 * j + 2 → (∀ c ∈ B, Live s c) →
    s.heap.index.size + j ≤ s.heap.index.maxSize →
    ∃ s' l' u' c v, Reach Init (Step bumpPages) s' ∧
      WellFormed s'.heap (l' ++ [u'] ++ c :: v :: r) ∧ u'.tag = true ∧ Live s' c ∧ v.tag = true ∧
      s'.heap.index.size = s.heap.index.size + j ∧
      s'.heap.index.maxSize = s.heap.index.maxSize ∧
      s'.heap.endAddress = s.heap.endAddress := by
  induction j with
  | zero =>
    intro s l B r u hs w hu hlen hlive hroom
    match B, hlen with
    | [c, v], _ =>
      exact ⟨s, l, u, c, v, hs, w, hu, hlive c (by simp), (hlive v (by simp)).1, rfl, rfl, rfl⟩
  | succ j ih =>
    intro s l B r u hs w hu hlen hlive hroom
    match B, hlen with
    | c :: v :: B, hlen =>
      obtain ⟨hc, b, hb, hp⟩ := hlive c (by simp)
      have hv := hlive v (by simp)
      obtain ⟨hsize, hkeep⟩ := w.free_between (s := s.pages) hu hc hv.1 bumpPages
      obtain ⟨w', hend⟩ := hkeep (by omega)
      have hmax := w.free_maxSize bumpPages s.pages
      rw [← hp] at hsize hmax w' hend
      have hcmin := w.min c (by simp)
      obtain ⟨g, hg⟩ : ∃ g : Sys Nat, g = ⟨(free bumpPages b.p s.heap s.pages).1,
          (free bumpPages b.p s.heap s.pages).2, s.live.filter fun e => e.p ≠ b.p⟩ := ⟨_, rfl⟩
      have hheap : (free bumpPages b.p s.heap s.pages).1 = g.heap := by rw [hg]
      rw [hheap] at hsize hmax w' hend
      have hkept : ∀ d ∈ B, Live g d := by
        intro d hd
        obtain ⟨hdu, e, he, hep⟩ := hlive d (by simp [hd])
        have hb := ((w.split rfl).2.bounds (show d ∈ v :: (B ++ r) by simp [hd])).1
        have hfin : c.fin = c.addr + c.size := rfl
        refine ⟨hdu, e, ?_, hep⟩
        rw [hg]
        exact List.mem_filter.2 ⟨he, by simp; omega⟩
      have hreach : Reach Init (Step bumpPages) g := by
        rw [hg]
        exact hs.next (.free hb)
      have hchunks : l ++ [u] ++ ⟨c.addr, c.size, false⟩ :: v :: (B ++ r) =
          (l ++ [u, ⟨c.addr, c.size, false⟩]) ++ [v] ++ (B ++ r) := by simp
      rw [show l ++ [u] ++ ⟨c.addr, c.size, false⟩ :: v :: (B.append r) = _ from hchunks] at w'
      have hlenB : B.length = 2 * j + 2 := by
        rw [List.length_cons, List.length_cons] at hlen
        omega
      obtain ⟨s', l', u', c', v', h1, h2, h3, h4, h5, h6, h7, h8⟩ :=
        ih hreach w' hv.1 hlenB hkept (by omega)
      exact ⟨s', l', u', c', v', h1, h2, h3, h4, h5, by omega, h7.trans hmax, h8.trans hend⟩

end

/-- **The index is full and gets one more entry.** A hole of 384 KB, once a block, takes 8193 blocks of
the smallest size; with every other one freed the index has `max_size` entries. -/
theorem index_overrun :
    ∃ s l c r, Reach Init (Step bumpPages) s ∧ WellFormed s.heap (l ++ c :: r) ∧
      s.heap.endAddress ≤ 0xd0000000 ∧ s.heap.index.size ≤ s.heap.index.maxSize ∧
      s.heap.index.maxSize = heapIndexSize ∧ c.tag = true ∧ (∃ b ∈ s.live, b.p = c.addr + 16) ∧
      (free bumpPages (c.addr + 16) s.heap s.pages).1.index.size = heapIndexSize + 1 ∧
      ∃ j ∈ freeSlots bumpPages (c.addr + 16) s.heap s.pages, heapIndexSize ≤ j := by
  have hrun : (runList exec [.alloc (0x60000 - 32) 0, .alloc (0x17000 - 32) 0, .free 0xC0019010]
      sys0).map (fun s =>
        (decide (WellFormed s.heap (⟨0xC0019000, 0x60000, false⟩ :: [⟨0xC0079000, 0x17000, true⟩])),
          s.heap.index.maxSize, s.heap.endAddress)) = some (true, heapIndexSize, 0xC0090000) := by
    decide +kernel
  obtain ⟨s0, hs0, h⟩ := Option.map_eq_some_iff.1 hrun
  simp only [Prod.mk.injEq, decide_eq_true_eq] at h
  obtain ⟨w0, hmax0, hend0⟩ := h
  have hreach : Reach Init (Step bumpPages) s0 :=
    .of_list (fun _ _ _ => exec_step) (.start init_sys0) hs0
  obtain ⟨s1, bs, hs1, w1, hlen, hlive, hmax1, hend1⟩ :=
    fill_run hreach w0 (by simp) (show 32 * 8193 + 32 ≤ 0x60000 by decide)
  -- the hole that is left has the only entry
  have hnone : holes bs = [] := by
    rw [List.eq_nil_iff_forall_not_mem]
    intro a ha
    obtain ⟨d, hd, ht, -⟩ := mem_holes.1 ha
    rw [(hlive d hd).1] at ht
    cases ht
  have hone : s1.heap.index.size = 1 := by
    rw [w1.size_eq, holes_append, hnone]
    rfl
  match bs, hlen with
  | u :: B, hlen =>
    obtain ⟨s, l, u', c, v, hs, w, hu, hc, hv, hsize, hmax, hend⟩ :=
      spread_run 4095 (l := []) hs1 w1 (hlive u (by simp)).1 (by simpa using hlen)
        (fun d hd => hlive d (by simp [hd])) (by rw [hone, hmax1, hmax0])
    obtain ⟨hadd, -⟩ := w.free_between (s := s.pages) hu hc.1 hv bumpPages
    rw [hmax1, hmax0] at hmax
    rw [hsize, hone] at hadd
    have hleft : leftHeader s.heap (c.addr + 16) = none := by
      rw [w.leftHeader_eq, hu]
      rfl
    obtain ⟨idx, lt, gone, -, hslots, hfree⟩ := w.free_slots bumpPages s.pages
    rw [if_pos hleft] at hslots hfree
    refine ⟨s, l ++ [u'], c, v :: _, hs, w, ?_, ?_, hmax, hc.1, hc.2, hadd, idx.size, ?_, ?_⟩
    · rw [hend, hend1, hend0]
      decide
    · rw [hsize, hone, hmax]
    · rw [hslots]
      refine List.mem_append_right _ (List.mem_append_right _ (List.mem_append_right _ ?_))
      have := insertPos_le lt c.addr idx
      rw [List.mem_range'_1]
      omega
    · rw [hfree, size_insert] at hadd
      unfold add64 at hadd
      show 0x1000 ≤ idx.size
      omega

end Kheap
