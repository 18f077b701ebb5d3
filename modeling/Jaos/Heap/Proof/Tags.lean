import Jaos.Heap.Kheap
import Jaos.Lib.Tile

/-!
# Headers and footers as boundary tags

A chunk of the heap is a segment with the flag `tag`, set for a block in use. `HeaderOk` and
`FooterOk` say that the memory holds the chunk's tags. Both look at their own 16 bytes only
(`HeaderOk.same`, `FooterOk.same`), and `writeHeader`, `writeFooter` establish them.
-/

namespace Kheap

open Lib OrderedArray

/-- A chunk: a block in use (`tag`) or a hole. -/
abbrev Chunk := Seg Bool

/-- The header of the chunk is in memory. -/
structure HeaderOk (m : Mem) (c : Chunk) : Prop where
  magic : magicAt m c.addr = heapMagic
  isHole : isHoleAt m c.addr = if c.tag then 0 else 1
  size : sizeAt m c.addr = c.size

/-- The footer of the chunk is in memory. -/
structure FooterOk (m : Mem) (c : Chunk) : Prop where
  magic : magicAt m (c.fin - 16) = heapMagic
  header : headerAt m (c.fin - 16) = c.addr

instance (m : Mem) (c : Chunk) : Decidable (HeaderOk m c) :=
  decidable_of_iff (magicAt m c.addr = heapMagic ∧ isHoleAt m c.addr = (if c.tag then 0 else 1) ∧
    sizeAt m c.addr = c.size) ⟨fun h => ⟨h.1, h.2.1, h.2.2⟩, fun h => ⟨h.1, h.2, h.3⟩⟩

instance (m : Mem) (c : Chunk) : Decidable (FooterOk m c) :=
  decidable_of_iff (magicAt m (c.fin - 16) = heapMagic ∧ headerAt m (c.fin - 16) = c.addr)
    ⟨fun h => ⟨h.1, h.2⟩, fun h => ⟨h.1, h.2⟩⟩

section
variable {m m' : Mem} {a : Nat}

theorem magicAt_same (h : m.Same m' a (a + 16)) : magicAt m' a = magicAt m a :=
  Mem.load_congr (h.mono (by omega) (by omega))

theorem isHoleAt_same (h : m.Same m' a (a + 16)) : isHoleAt m' a = isHoleAt m a :=
  Mem.load_congr (h.mono (by omega) (by omega))

theorem sizeAt_same (h : m.Same m' a (a + 16)) : sizeAt m' a = sizeAt m a :=
  Mem.load_congr (h.mono (by omega) (by omega))

theorem headerAt_same (h : m.Same m' a (a + 16)) : headerAt m' a = headerAt m a :=
  Mem.load_congr (h.mono (by omega) (by omega))

theorem HeaderOk.same {c : Chunk} (hc : HeaderOk m c) (h : m.Same m' c.addr (c.addr + 16)) :
    HeaderOk m' c :=
  ⟨(magicAt_same h).trans hc.magic, (isHoleAt_same h).trans hc.isHole, (sizeAt_same h).trans hc.size⟩

theorem FooterOk.same {c : Chunk} (hc : FooterOk m c) (hs : 16 ≤ c.size)
    (h : m.Same m' (c.fin - 16) c.fin) : FooterOk m' c := by
  have h : m.Same m' (c.fin - 16) (c.fin - 16 + 16) :=
    h.mono (Nat.le_refl _) (by unfold Seg.fin; omega)
  exact ⟨(magicAt_same h).trans hc.magic, (headerAt_same h).trans hc.header⟩

end

section
variable (m : Mem) {a b lo hi : Nat}

/-! ## The writes and the bytes they leave alone -/

theorem same_setMagic (v : Nat) (h : hi ≤ a ∨ a + 16 ≤ lo) : m.Same (setMagic a v m) lo hi :=
  m.same_store v (by omega)

theorem same_setIsHole (v : Nat) (h : hi ≤ a ∨ a + 16 ≤ lo) : m.Same (setIsHole a v m) lo hi :=
  m.same_store v (by omega)

theorem same_setSize (v : Nat) (h : hi ≤ a ∨ a + 16 ≤ lo) : m.Same (setSize a v m) lo hi :=
  m.same_store v (by omega)

theorem same_setHeader (v : Nat) (h : hi ≤ a ∨ a + 16 ≤ lo) : m.Same (setHeader a v m) lo hi :=
  m.same_store v (by omega)

theorem same_writeHeader (i v : Nat) (h : hi ≤ a ∨ a + 16 ≤ lo) :
    m.Same (writeHeader a i v m) lo hi :=
  ((same_setMagic m _ h).trans (same_setIsHole _ _ h)).trans (same_setSize _ _ h)

theorem same_writeFooter (v : Nat) (h : hi ≤ a ∨ a + 16 ≤ lo) : m.Same (writeFooter a v m) lo hi :=
  (same_setMagic m _ h).trans (same_setHeader _ _ h)

/-- A byte after `writeFooter` depends on the byte before only. -/
theorem writeFooter_congr {m m' : Mem} {x : Nat} (a v : Nat) (h : m x = m' x) :
    writeFooter a v m x = writeFooter a v m' x :=
  Mem.store_congr _ _ _ (Mem.store_congr _ _ _ h)

/-! ## What a write leaves to be read -/

theorem magicAt_writeHeader (a i v : Nat) : magicAt (writeHeader a i v m) a = heapMagic := by
  unfold magicAt writeHeader setSize setIsHole setMagic
  rw [Mem.load_store_ne _ _ (by omega), Mem.load_store_ne _ _ (by omega), Mem.load_store_same]
  rfl

theorem isHoleAt_writeHeader (a v : Nat) {i : Nat} (hi : i < 256) :
    isHoleAt (writeHeader a i v m) a = i := by
  unfold isHoleAt writeHeader setSize setIsHole
  rw [Mem.load_store_ne _ _ (by omega), Mem.load_store_same, Nat.pow_one, Nat.mod_eq_of_lt hi]

theorem sizeAt_setSize (a : Nat) {v : Nat} (hv : v < 2 ^ 64) : sizeAt (setSize a v m) a = v := by
  unfold sizeAt setSize
  rw [Mem.load_store_same]
  exact Nat.mod_eq_of_lt hv

theorem sizeAt_writeHeader (a i : Nat) {v : Nat} (hv : v < 2 ^ 64) :
    sizeAt (writeHeader a i v m) a = v := sizeAt_setSize _ a hv

theorem magicAt_setSize (a v : Nat) : magicAt (setSize a v m) a = magicAt m a :=
  Mem.load_store_ne _ _ (by omega)

theorem isHoleAt_setSize (a v : Nat) : isHoleAt (setSize a v m) a = isHoleAt m a :=
  Mem.load_store_ne _ _ (by omega)

theorem magicAt_setIsHole (a v : Nat) : magicAt (setIsHole a v m) a = magicAt m a :=
  Mem.load_store_ne _ _ (by omega)

theorem sizeAt_setIsHole (a v : Nat) : sizeAt (setIsHole a v m) a = sizeAt m a :=
  Mem.load_store_ne _ _ (by omega)

theorem isHoleAt_setIsHole (a : Nat) {v : Nat} (hv : v < 256) :
    isHoleAt (setIsHole a v m) a = v := by
  unfold isHoleAt setIsHole
  rw [Mem.load_store_same, Nat.pow_one, Nat.mod_eq_of_lt hv]

theorem magicAt_setHeader (a v : Nat) : magicAt (setHeader a v m) a = magicAt m a :=
  Mem.load_store_ne _ _ (by omega)

theorem headerAt_setHeader (a : Nat) {v : Nat} (hv : v < 2 ^ 64) :
    headerAt (setHeader a v m) a = v := by
  unfold headerAt setHeader
  rw [Mem.load_store_same]
  exact Nat.mod_eq_of_lt hv

theorem magicAt_writeFooter (a v : Nat) : magicAt (writeFooter a v m) a = heapMagic := by
  unfold magicAt writeFooter setHeader setMagic
  rw [Mem.load_store_ne _ _ (by omega), Mem.load_store_same]
  rfl

theorem headerAt_writeFooter (a : Nat) {v : Nat} (hv : v < 2 ^ 64) :
    headerAt (writeFooter a v m) a = v := headerAt_setHeader _ a hv

end

theorem headerOk_writeHeader (m : Mem) {c : Chunk} (h : c.size < 2 ^ 64) :
    HeaderOk (writeHeader c.addr (if c.tag then 0 else 1) c.size m) c :=
  ⟨magicAt_writeHeader m _ _ _, isHoleAt_writeHeader m _ _ (by split <;> decide),
    sizeAt_writeHeader m _ _ h⟩

theorem footerOk_writeFooter (m : Mem) {c : Chunk} (h : c.addr < 2 ^ 64) :
    FooterOk (writeFooter (c.fin - 16) c.addr m) c :=
  ⟨magicAt_writeFooter m _ _, headerAt_writeFooter m _ h⟩

/-! ## Updates of the heap's memory -/

section
variable (f g : Mem → Mem) (h : Heap)

theorem onMem_onMem : onMem f (onMem g h) = onMem (fun m => f (g m)) h := rfl

@[simp] theorem onMem_mem : (onMem f h).mem = f h.mem := rfl
@[simp] theorem onMem_index : (onMem f h).index = h.index := rfl
@[simp] theorem onMem_startAddress : (onMem f h).startAddress = h.startAddress := rfl
@[simp] theorem onMem_endAddress : (onMem f h).endAddress = h.endAddress := rfl
@[simp] theorem onMem_maxAddress : (onMem f h).maxAddress = h.maxAddress := rfl

variable (a : Nat)

@[simp] theorem insertIndex_mem : (insertIndex a h).mem = h.mem := rfl
@[simp] theorem insertIndex_startAddress : (insertIndex a h).startAddress = h.startAddress := rfl
@[simp] theorem insertIndex_endAddress : (insertIndex a h).endAddress = h.endAddress := rfl
@[simp] theorem insertIndex_maxAddress : (insertIndex a h).maxAddress = h.maxAddress := rfl
theorem insertIndex_index : (insertIndex a h).index =
    insertOrderedArray (headerTLessThan h.mem) a h.index := rfl

theorem removeIndex_index : (removeIndex a h).index = removeOrderedArray a h.index := rfl

@[simp] theorem removeIndex_mem : (removeIndex a h).mem = h.mem := rfl
@[simp] theorem removeIndex_startAddress : (removeIndex a h).startAddress = h.startAddress := rfl
@[simp] theorem removeIndex_endAddress : (removeIndex a h).endAddress = h.endAddress := rfl
@[simp] theorem removeIndex_maxAddress : (removeIndex a h).maxAddress = h.maxAddress := rfl

end

/-! ## Both tags of a list of chunks -/

/-- Header and footer of the chunk written. -/
def writeTags (c : Chunk) (m : Mem) : Mem :=
  writeFooter (c.fin - 16) c.addr (writeHeader c.addr (if c.tag then 0 else 1) c.size m)

/-- The tags of the chunks written one after the other. -/
def writeAll : List Chunk → Mem → Mem
  | [], m => m
  | c :: l, m => writeAll l (writeTags c m)

theorem same_writeTags (m : Mem) {c : Chunk} {lo hi : Nat} (hc : 16 ≤ c.size)
    (h : hi ≤ c.addr ∨ c.fin ≤ lo) : m.Same (writeTags c m) lo hi := by
  unfold Seg.fin at h
  exact (same_writeHeader m _ _ (by omega)).trans
    (same_writeFooter _ _ (by unfold Seg.fin; omega))

theorem tagsOk_writeTags (m : Mem) {c : Chunk} (hs : 32 ≤ c.size) (hf : c.fin < 2 ^ 64) :
    HeaderOk (writeTags c m) c ∧ FooterOk (writeTags c m) c := by
  unfold Seg.fin at hf
  refine ⟨(headerOk_writeHeader m (by omega)).same (same_writeFooter _ _ ?_),
    footerOk_writeFooter _ (by omega)⟩
  unfold Seg.fin
  omega

section
variable {a b : Nat} {l : List Chunk}

theorem same_writeAll (m : Mem) {lo hi : Nat} (ht : Tiles a b l) (hs : ∀ c ∈ l, 32 ≤ c.size)
    (h : hi ≤ a ∨ b ≤ lo) : m.Same (writeAll l m) lo hi := by
  induction l generalizing a m with
  | nil => exact .refl m lo hi
  | cons c l ih =>
    have hc := hs c List.mem_cons_self
    have hb := ht.2.le
    have ha := ht.1
    refine (same_writeTags m (by omega) (by omega)).trans
      (ih _ ht.2 (fun d hd => hs d (List.mem_cons_of_mem _ hd)) ?_)
    unfold Seg.fin at *
    omega

/-- Chunks that tile an interval all have their tags once all are written. -/
theorem tagsOk_writeAll (m : Mem) (ht : Tiles a b l) (hs : ∀ c ∈ l, 32 ≤ c.size)
    (hb : b < 2 ^ 64) : ∀ c ∈ l, HeaderOk (writeAll l m) c ∧ FooterOk (writeAll l m) c := by
  induction l generalizing a m with
  | nil => simp
  | cons c l ih =>
    have hs' : ∀ d ∈ l, 32 ≤ d.size := fun d hd => hs d (List.mem_cons_of_mem _ hd)
    have hc := hs c List.mem_cons_self
    have hfin := ht.2.le
    intro d hd
    rcases List.mem_cons.1 hd with rfl | hd
    · obtain ⟨h1, h2⟩ := tagsOk_writeTags m hc (by omega)
      refine ⟨h1.same (same_writeAll _ ht.2 hs' (.inl ?_)),
        h2.same (by omega) (same_writeAll _ ht.2 hs' (.inl (Nat.le_refl _)))⟩
      unfold Seg.fin
      omega
    · exact ih _ ht.2 hs' d hd

end

end Kheap
