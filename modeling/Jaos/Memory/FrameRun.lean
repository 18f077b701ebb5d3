import Jaos.Memory.Proof.Frames
import Jaos.Lib.Run

/-!
# Runs of the frame allocator

The state is the bitmap with its counters and the list of ranges handed out and not freed since. A
caller frees blocks of a range it owns, all of them or some. `frames_sound`: after `memman_init` on
any memory map with room for the kernel, the counter is right, the owned ranges are apart, marked as
used and clear of everything reserved, in every state of every run.
-/

namespace Memman

open Lib Words

/-- `len` blocks from `start` on. -/
structure Range where
  start : Nat
  len : Nat

namespace Range

def Mem (n : Nat) (r : Range) : Prop := r.start ≤ n ∧ n < r.start + r.len

/-- The ranges share no block. -/
def Apart (r r' : Range) : Prop := ∀ n, ¬ (r.Mem n ∧ r'.Mem n)

/-- What is left of `r` once `len` blocks from `start` on are freed. -/
def without (r : Range) (start len : Nat) : List Range :=
  [⟨r.start, start - r.start⟩, ⟨start + len, r.start + r.len - (start + len)⟩]

end Range

structure Sys where
  frames : Frames
  owned : List Range

inductive Op
  | allocBlock
  | allocBlocks (size : Nat)
  | freeBlock (addr : Nat)
  | freeBlocks (addr size : Nat)

/-- The range at the address an allocation returned, none for the null pointer. -/
def handOut (addr size : Nat) : List Range :=
  if addr = 0 then [] else [⟨addr / memBlockSize, size⟩]

inductive Step : Sys → Op → Sys → Prop
  | allocBlock {s : Sys} :
      Step s .allocBlock
        ⟨(memAllocBlock s.frames).2, handOut (memAllocBlock s.frames).1 1 ++ s.owned⟩
  | allocBlocks {s : Sys} {size addr : Nat} {f : Frames} :
      memAllocBlocks size s.frames = some (addr, f) →
      Step s (.allocBlocks size) ⟨f, handOut addr size ++ s.owned⟩
  | freeBlock {f : Frames} {l l' : List Range} {r : Range} {addr : Nat} :
      r.start ≤ addr / memBlockSize → addr / memBlockSize + 1 ≤ r.start + r.len →
      Step ⟨f, l ++ r :: l'⟩ (.freeBlock addr)
        ⟨memFreeBlock addr f, l ++ (r.without (addr / memBlockSize) 1 ++ l')⟩
  | freeBlocks {f : Frames} {l l' : List Range} {r : Range} {addr size : Nat} :
      r.start ≤ addr / memBlockSize → addr / memBlockSize + size ≤ r.start + r.len →
      Step ⟨f, l ++ r :: l'⟩ (.freeBlocks addr size)
        ⟨memFreeBlocks addr size f, l ++ (r.without (addr / memBlockSize) size ++ l')⟩

/-- The BIOS memory map and the kernel image: no available region wraps past `2 ^ 64`, the image
starts where the linker script puts it, and the highest available address leaves room for it. -/
structure Boot (kernelEnd : Nat) (memoryMap : List MemoryRegion) : Prop where
  regions : ∀ r ∈ memoryMap, r.type = 1 → r.start + r.size < 2 ^ 64
  image : kernelStart ≤ kernelEnd
  imageEnd : kernelEnd < 2 ^ 64
  room : 0x200 + blocksUsedByKernel kernelEnd (limit memoryMap / memBlockSize) ≤
    limit memoryMap / memBlockSize

/-- The state `memman_init` leaves; nothing is handed out yet. -/
inductive Init (kernelEnd : Nat) : Sys → Prop
  | mk {memoryMap : List MemoryRegion} {memory : Words} : Boot kernelEnd memoryMap →
      Init kernelEnd ⟨memmanInit kernelEnd memoryMap memory, []⟩

/-- The block behind a kernel virtual address. -/
def backing (a : Nat) : Nat := 0x200 + (a / 0x1000 - 0xC0000000 / 0x1000)

/-- The blocks no caller may get: the first megabyte, the kernel image and the bitmap. -/
def Reserved (kernelEnd maxBlocks n : Nat) : Prop :=
  n < 256 ∨ (∃ a, kernelStart ≤ a ∧ a < kernelEnd ∧ n = backing a) ∨
    ∃ a, memoryMapAddr kernelEnd ≤ a ∧ a < memoryMapAddr kernelEnd + 8 * (maxBlocks / 64 + 1) ∧
      n = backing a

/-- **The frame allocator is sound**: the counter, and the owned ranges. -/
structure Good (kernelEnd : Nat) (s : Sys) : Prop where
  used : s.frames.usedBlocks = count s.frames.memoryMap.bit s.frames.maxBlocks
  apart : s.owned.Pairwise Range.Apart
  below : ∀ r ∈ s.owned, r.start + r.len ≤ s.frames.maxBlocks
  marked : ∀ r ∈ s.owned, ∀ n, r.Mem n → s.frames.memoryMap.bit n = true
  clear : ∀ r ∈ s.owned, ∀ n, r.Mem n → ¬ Reserved kernelEnd s.frames.maxBlocks n

/-! ## The invariant -/

/-- The blocks that `memman_init` marks by hand: the first megabyte and the kernel's. -/
def KernelBlock (kernelEnd maxBlocks n : Nat) : Prop :=
  n < 256 ∨ 0x200 ≤ n ∧ n < 0x200 + blocksUsedByKernel kernelEnd maxBlocks

theorem blocksUsedByKernel_eq {kernelEnd maxBlocks : Nat} (h1 : kernelStart ≤ kernelEnd)
    (h2 : kernelEnd < 2 ^ 64) (h3 : maxBlocks < 2 ^ 52) :
    blocksUsedByKernel kernelEnd maxBlocks =
      kernelEnd / 4096 + 1 + maxBlocks / 8 / 4096 + 1 - 0xC0000 := by
  unfold blocksUsedByKernel
  dsimp only [kernelStart, memBlocksPerByte, memBlockSize] at *
  rw [sub64_of_le (by omega) (by omega)]

/-- **The bitmap keeps its own storage**, whatever its size: the blocks marked for the kernel cover
the image and the bitmap. -/
theorem kernelBlock_of_reserved {kernelEnd maxBlocks n : Nat} (h1 : kernelStart ≤ kernelEnd)
    (h2 : kernelEnd < 2 ^ 64) (h3 : maxBlocks < 2 ^ 52) (h : Reserved kernelEnd maxBlocks n) :
    KernelBlock kernelEnd maxBlocks n := by
  unfold KernelBlock
  rw [blocksUsedByKernel_eq h1 h2 h3]
  unfold Reserved backing memoryMapAddr at h
  dsimp only [kernelStart] at h h1
  rcases h with h | ⟨a, ha1, ha2, hn⟩ | ⟨a, ha1, ha2, hn⟩
  · exact .inl h
  · exact .inr (by omega)
  · exact .inr (by omega)

/-- The invariant: the claims of `Good` with the blocks marked by hand in place of the reserved
ones, which are marked for good. -/
structure Inv (kernelEnd maxBlocks : Nat) (s : Sys) : Prop where
  sound : Sound s.frames
  max : s.frames.maxBlocks = maxBlocks
  kernel : ∀ n, KernelBlock kernelEnd maxBlocks n → s.frames.memoryMap.bit n = true
  apart : s.owned.Pairwise Range.Apart
  below : ∀ r ∈ s.owned, r.start + r.len ≤ maxBlocks
  marked : ∀ r ∈ s.owned, ∀ n, r.Mem n → s.frames.memoryMap.bit n = true
  clear : ∀ r ∈ s.owned, ∀ n, r.Mem n → ¬ KernelBlock kernelEnd maxBlocks n

/-! ## Initialisation -/

section
variable {f : Frames} {kernelEnd : Nat}

theorem limit_le {memoryMap : List MemoryRegion} {n : Nat} :
    n ≤ memoryMap.foldl (fun limit r =>
      if r.type = 1 ∧ limit < add64 r.start r.size then add64 r.start r.size else limit) n ∧
    ∀ r ∈ memoryMap, r.type = 1 → add64 r.start r.size ≤ memoryMap.foldl (fun limit r =>
      if r.type = 1 ∧ limit < add64 r.start r.size then add64 r.start r.size else limit) n := by
  induction memoryMap generalizing n with
  | nil => simp
  | cons r l ih =>
    rw [List.foldl_cons]
    obtain ⟨h1, h2⟩ := ih (n := if r.type = 1 ∧ n < add64 r.start r.size then add64 r.start r.size
      else n)
    refine ⟨Nat.le_trans (by split <;> omega) h1, fun r' hr ht => ?_⟩
    rcases List.mem_cons.1 hr with rfl | hr
    · refine Nat.le_trans ?_ h1
      split
      · exact Nat.le_refl _
      · omega
    · exact h2 r' hr ht

theorem limit_lt (memoryMap : List MemoryRegion) : limit memoryMap < 2 ^ 64 := by
  unfold limit
  refine List.foldlRecOn (motive := (· < 2 ^ 64)) memoryMap _ (by decide) fun n hn r _ => ?_
  split
  · exact add64_lt _ _
  · exact hn

theorem initRegionFrom_sound {k a : Nat} (h : Sound f) (hr : a + k ≤ f.maxBlocks) :
    Sound (initRegionFrom k a f) ∧
      (initRegionFrom k a f).maxBlocks = f.maxBlocks := by
  induction k generalizing a f with
  | zero => exact ⟨h, rfl⟩
  | succ k ih =>
    unfold initRegionFrom
    split
    · rename_i ht
      exact ih (h.unset (by omega) (mmapTest_iff.1 ht)) (by dsimp only [mmapUnset]; omega)
    · exact ih h (by omega)

theorem markUsed_sound {k i : Nat} (h : Sound f) (hr : i + k ≤ f.maxBlocks) :
    Sound (markUsed k i f) ∧ (markUsed k i f).maxBlocks = f.maxBlocks ∧
      (∀ n, f.memoryMap.bit n = true → (markUsed k i f).memoryMap.bit n = true) ∧
      ∀ n, i ≤ n → n < i + k → (markUsed k i f).memoryMap.bit n = true := by
  induction k generalizing i f with
  | zero => exact ⟨h, rfl, fun _ hn => hn, fun n h1 h2 => by omega⟩
  | succ k ih =>
    unfold markUsed
    split
    · rename_i ht
      obtain ⟨h1, h2, h3, h4⟩ := ih (i := i + 1) h (by omega)
      refine ⟨h1, h2, h3, fun n hn1 hn2 => ?_⟩
      rcases Nat.eq_or_lt_of_le hn1 with rfl | hn1
      · exact h3 _ (mmapTest_iff.1 ht)
      · exact h4 n hn1 (by omega)
    · rename_i ht
      have hc : f.memoryMap.bit i = false := by
        rw [mmapTest_iff, Bool.not_eq_true] at ht
        exact ht
      obtain ⟨h1, h2, h3, h4⟩ := ih (i := i + 1) (h.set (by omega) hc)
        (by dsimp only [mmapSet]; omega)
      dsimp only [mmapSet] at h1 h2 h3 h4
      refine ⟨h1, h2, fun n hn => h3 n (by rw [bit_set, hn, Bool.or_true]), fun n hn1 hn2 => ?_⟩
      rcases Nat.eq_or_lt_of_le hn1 with rfl | hn1
      · exact h3 _ (by simp [bit_set])
      · exact h4 n hn1 (by omega)

theorem fillMap_sound {maxBlocks : Nat} (memory : Words) (h : maxBlocks < 2 ^ 52) :
    Sound (fillMap maxBlocks memory) := by
  have hbit : ∀ n, n < (maxBlocks / 64 + 1) * 64 →
      (fillMap maxBlocks memory).memoryMap.bit n = true := by
    intro n hn
    unfold fillMap bit
    dsimp only [memMapWordSize]
    rw [if_pos (by omega), BitVec.getLsbD_allOnes, decide_eq_true (Nat.mod_lt _ (by decide))]
  exact ⟨(count_all fun i hi => hbit i (by dsimp only [fillMap] at hi; omega)).symm,
    fun n _ h2 => hbit n h2, h⟩

/-- **`memman_init`** establishes the invariant. -/
theorem inv_init {memoryMap : List MemoryRegion} (memory : Words) (b : Boot kernelEnd memoryMap) :
    Inv kernelEnd (limit memoryMap / memBlockSize)
      ⟨memmanInit kernelEnd memoryMap memory, []⟩ := by
  have hlim := limit_lt memoryMap
  have hsmall : limit memoryMap / memBlockSize < 2 ^ 52 := by
    dsimp only [memBlockSize]
    omega
  have hroom := b.room
  -- the available regions end below the limit
  have hregion : ∀ r ∈ memoryMap, r.type = 1 →
      r.start / memBlockSize + r.size / memBlockSize ≤ limit memoryMap / memBlockSize := by
    intro r hr ht
    have h1 := (limit_le (n := 0)).2 r hr ht
    have h2 := b.regions r hr ht
    rw [add64_of_lt h2] at h1
    change r.start + r.size ≤ limit memoryMap at h1
    dsimp only [memBlockSize]
    omega
  obtain ⟨hs, hm⟩ := List.foldlRecOn
    (motive := fun f => Sound f ∧ f.maxBlocks = limit memoryMap / memBlockSize) memoryMap
    (fun f r => if r.type = 1 then memInitRegion r.start r.size f else f)
    (b := fillMap (limit memoryMap / memBlockSize) memory) ⟨fillMap_sound memory hsmall, rfl⟩
    fun f ⟨hf, hm⟩ r hr => by
      split
      · rename_i ht
        have h := initRegionFrom_sound (a := r.start / memBlockSize)
          (k := r.size / memBlockSize) hf (by rw [hm]; exact hregion r hr ht)
        exact ⟨h.1, h.2.trans hm⟩
      · exact ⟨hf, hm⟩
  unfold memmanInit
  dsimp only
  generalize memoryMap.foldl (fun f r => if r.type = 1 then memInitRegion r.start r.size f else f)
    (fillMap (limit memoryMap / memBlockSize) memory) = f1 at hs hm ⊢
  obtain ⟨hs2, hm2, -, hlow⟩ := markUsed_sound (k := 256) (i := 0) hs (by omega)
  generalize markUsed 256 0 f1 = f2 at hs2 hm2 hlow ⊢
  rw [hm] at hm2
  obtain ⟨hs3, hm3, hkeep, hker⟩ := markUsed_sound (i := 0x200)
    (k := blocksUsedByKernel kernelEnd f2.maxBlocks) hs2 (by rw [hm2]; exact hroom)
  rw [hm2] at hs3 hm3 hkeep hker
  rw [hm2]
  generalize markUsed (blocksUsedByKernel kernelEnd (limit memoryMap / memBlockSize)) 0x200 f2 = f3
    at hs3 hm3 hkeep hker ⊢
  refine ⟨hs3, hm3, fun n hn => ?_, List.Pairwise.nil, by simp, by simp, by simp⟩
  rcases hn with hn | ⟨hn1, hn2⟩
  · exact hkeep n (hlow n (Nat.zero_le n) (by rwa [Nat.zero_add]))
  · exact hker n hn1 hn2

/-! ## The steps -/

theorem handOut_mem {addr size : Nat} {r : Range} (h : r ∈ handOut addr size) :
    addr ≠ 0 ∧ r = ⟨addr / memBlockSize, size⟩ := by
  unfold handOut at h
  split at h
  · cases h
  · rename_i hne
    exact ⟨hne, List.mem_singleton.1 h⟩

section
variable {maxBlocks : Nat} {s : Sys}

/-- Newly marked blocks join the owned ranges. -/
theorem Inv.alloc (inv : Inv kernelEnd maxBlocks s) {f : Frames} {frame size : Nat} (hs : Sound f)
    (hm : f.maxBlocks = s.frames.maxBlocks) (hr : frame + size ≤ maxBlocks)
    (hclear : ∀ n, frame ≤ n → n < frame + size → s.frames.memoryMap.bit n = false)
    (hbit : ∀ n, f.memoryMap.bit n =
      (decide (frame ≤ n ∧ n < frame + size) || s.frames.memoryMap.bit n)) :
    Inv kernelEnd maxBlocks ⟨f, ⟨frame, size⟩ :: s.owned⟩ := by
  have hkeep : ∀ n, s.frames.memoryMap.bit n = true → f.memoryMap.bit n = true := fun n hn => by
    rw [hbit, hn, Bool.or_true]
  -- a block with its bit set is not one of the new ones
  have hnew : ∀ n, (⟨frame, size⟩ : Range).Mem n → s.frames.memoryMap.bit n ≠ true := fun n hn => by
    rw [hclear n hn.1 hn.2]
    exact Bool.false_ne_true
  constructor
  · exact hs
  · exact hm.trans inv.max
  · exact fun n hn => hkeep n (inv.kernel n hn)
  · refine List.pairwise_cons.2 ⟨fun r hr n hn => hnew n hn.1 (inv.marked r hr n hn.2), inv.apart⟩
  · exact fun r hr' => (List.mem_cons.1 hr').elim (fun h => by rw [h]; exact hr) (inv.below r)
  · intro r hr' n hn
    rcases List.mem_cons.1 hr' with rfl | hr'
    · have hn : frame ≤ n ∧ n < frame + size := hn
      rw [hbit, decide_eq_true hn, Bool.true_or]
    · exact hkeep n (inv.marked r hr' n hn)
  · intro r hr' n hn hk
    rcases List.mem_cons.1 hr' with rfl | hr'
    · exact hnew n hn (inv.kernel n hk)
    · exact inv.clear r hr' n hn hk

/-- Blocks of one owned range are freed. -/
theorem Inv.free {f f' : Frames} {l l' : List Range} {r : Range} {start len : Nat}
    (inv : Inv kernelEnd maxBlocks ⟨f, l ++ r :: l'⟩) (h1 : r.start ≤ start)
    (h2 : start + len ≤ r.start + r.len) (hs : Sound f') (hm : f'.maxBlocks = f.maxBlocks)
    (hbit : ∀ n, f'.memoryMap.bit n =
      (!decide (start ≤ n ∧ n < start + len) && f.memoryMap.bit n)) :
    Inv kernelEnd maxBlocks ⟨f', l ++ (r.without start len ++ l')⟩ := by
  have hr : r ∈ l ++ r :: l' := by simp
  -- a block of a remaining range is a block of an old one and not among the freed
  have hold : ∀ q ∈ l ++ (r.without start len ++ l'),
      (q ∈ l ∨ q ∈ l') ∨ ∀ n, q.Mem n → r.Mem n ∧ ¬ (start ≤ n ∧ n < start + len) := by
    intro q hq
    simp only [List.mem_append] at hq
    rcases hq with hq | hq | hq
    · exact .inl (.inl hq)
    · refine .inr fun n hn => ?_
      unfold Range.without at hq
      simp only [List.mem_cons, List.not_mem_nil, or_false] at hq
      rcases hq with rfl | rfl <;> unfold Range.Mem at * <;> dsimp only at * <;> omega
    · exact .inl (.inr hq)
  have hap := List.pairwise_append.1 inv.apart
  have hap' := List.pairwise_cons.1 hap.2.1
  -- the freed blocks belong to no other range
  have hother : ∀ q, q ∈ l ∨ q ∈ l' → q.Apart r := by
    rintro q (hq | hq) n hn
    · exact hap.2.2 q hq r List.mem_cons_self n hn
    · exact hap'.1 q hq n hn.symm
  have hpieces : ∀ q ∈ r.without start len, ∀ n, q.Mem n → r.Mem n := by
    intro q hq n hn
    unfold Range.without at hq
    simp only [List.mem_cons, List.not_mem_nil, or_false] at hq
    rcases hq with rfl | rfl <;> unfold Range.Mem at * <;> dsimp only at * <;> omega
  constructor
  · exact hs
  · exact hm.trans inv.max
  · intro n hn
    have := inv.clear r hr n
    rw [hbit, inv.kernel n hn, Bool.and_true, Bool.not_eq_true', decide_eq_false_iff_not]
    exact fun h => this ⟨by omega, by omega⟩ hn
  · refine List.pairwise_append.2 ⟨hap.1, List.pairwise_append.2 ⟨?_, hap'.2, ?_⟩, ?_⟩
    · unfold Range.without
      simp only [List.pairwise_cons, List.mem_singleton, forall_eq, List.not_mem_nil,
        false_imp_iff, implies_true, List.Pairwise.nil, and_true]
      rintro n ⟨hn1, hn2⟩
      unfold Range.Mem at hn1 hn2
      dsimp only at hn1 hn2
      omega
    · exact fun q hq q' hq' n hn => hap'.1 q' hq' n ⟨hpieces q hq n hn.1, hn.2⟩
    · intro q hq q' hq' n hn
      rcases List.mem_append.1 hq' with hq' | hq'
      · exact hother q (.inl hq) n ⟨hn.1, hpieces q' hq' n hn.2⟩
      · exact hap.2.2 q hq q' (List.mem_cons_of_mem _ hq') n hn
  · intro q hq
    have hbelow := inv.below r hr
    simp only [List.mem_append] at hq
    rcases hq with hq | hq | hq
    · exact inv.below q (by simp [hq])
    · unfold Range.without at hq
      simp only [List.mem_cons, List.not_mem_nil, or_false] at hq
      rcases hq with rfl | rfl <;> dsimp only <;> omega
    · exact inv.below q (by simp [hq])
  · intro q hq n hn
    have hset : f.memoryMap.bit n = true ∧ ¬ (start ≤ n ∧ n < start + len) := by
      rcases hold q hq with h | h
      · have hq' : q ∈ l ++ r :: l' := by rcases h with h | h <;> simp [h]
        exact ⟨inv.marked q hq' n hn, fun h' => hother q h n ⟨hn, by omega, by omega⟩⟩
      · exact ⟨inv.marked r hr n (h n hn).1, (h n hn).2⟩
    rw [hbit, hset.1, decide_eq_false hset.2]
    rfl
  · intro q hq n hn hk
    rcases hold q hq with h | h
    · exact inv.clear q (by rcases h with h | h <;> simp [h]) n hn hk
    · exact inv.clear r hr n (h n hn).1 hk

theorem Inv.step {s' : Sys} {op : Op} (inv : Inv kernelEnd maxBlocks s) (h : Step s op s') :
    Inv kernelEnd maxBlocks s' := by
  have hmax := inv.max
  cases h with
  | allocBlock =>
    unfold memAllocBlock
    split
    · exact inv
    · dsimp only
      split
      · exact inv
      · rename_i hne
        obtain ⟨hc, hlt⟩ := (firstFree_spec s.frames).resolve_left hne
        generalize mmapFirstFree s.frames = frame at hne hc hlt ⊢
        have hh : handOut (frame * memBlockSize) 1 = [⟨frame, 1⟩] := by
          unfold handOut
          dsimp only [memBlockSize]
          rw [if_neg (by omega), Nat.mul_div_cancel _ (by decide)]
        rw [hh]
        refine inv.alloc (inv.sound.set hlt hc) rfl (by omega) (fun n h1 h2 => ?_) fun n => ?_
        · obtain rfl : n = frame := by omega
          exact hc
        · dsimp only [mmapSet]
          rw [bit_set]
          congr 1
          rw [decide_eq_decide]
          omega
  | @allocBlocks _ size addr f h =>
    unfold memAllocBlocks at h
    split at h
    · cases h
      exact inv
    · obtain ⟨frame, hz, h⟩ := Option.map_eq_some_iff.1 h
      split at h
      · cases h
        exact inv
      · rename_i hne
        obtain ⟨hr, hc⟩ := (inv.sound.guarded.zone_spec hz).resolve_left hne
        cases h
        have hh : handOut (frame * memBlockSize) size = [⟨frame, size⟩] := by
          unfold handOut
          dsimp only [memBlockSize]
          rw [if_neg (by omega), Nat.mul_div_cancel _ (by decide)]
        rw [hh]
        exact inv.alloc (inv.sound.setRange hr hc) (by simp) (by omega) hc fun n =>
          bit_setRange n
  | @freeBlock f l l' r addr h1 h2 =>
    have hr : r ∈ l ++ r :: l' := by simp
    have hbelow := inv.below r hr
    dsimp only at hmax
    have hs := inv.sound.unset (n := addr / memBlockSize) (by dsimp only; omega)
      (inv.marked r hr _ ⟨h1, by omega⟩)
    unfold memFreeBlock
    dsimp only at hs ⊢
    refine inv.free h1 h2 hs rfl fun n => ?_
    dsimp only [mmapUnset]
    rw [bit_unset]
    congr 2
    rw [decide_eq_decide]
    omega
  | @freeBlocks f l l' r addr size h1 h2 =>
    have hr : r ∈ l ++ r :: l' := by simp
    have hbelow := inv.below r hr
    dsimp only at hmax
    have hs := inv.sound.unsetRange
      (show addr / memBlockSize + size ≤ f.maxBlocks by omega) fun k hk1 hk2 => inv.marked r hr k ⟨by omega, by omega⟩
    unfold memFreeBlocks
    dsimp only at hs ⊢
    exact inv.free h1 h2 hs unsetRange_maxBlocks fun n => bit_unsetRange n

end

/-- In every state reached the invariant holds. -/
theorem Inv.reach {s : Sys} (h : Reach (Init kernelEnd) Step s) :
    (kernelStart ≤ kernelEnd ∧ kernelEnd < 2 ^ 64) ∧ ∃ maxBlocks, Inv kernelEnd maxBlocks s := by
  refine h.invariant (P := fun s => (kernelStart ≤ kernelEnd ∧ kernelEnd < 2 ^ 64) ∧
    ∃ maxBlocks, Inv kernelEnd maxBlocks s) (fun s hs => ?_) fun s op s' inv hs => ?_
  · obtain @⟨memoryMap, memory, b⟩ := hs
    exact ⟨⟨b.image, b.imageEnd⟩, limit memoryMap / memBlockSize, inv_init memory b⟩
  · obtain ⟨himage, maxBlocks, inv⟩ := inv
    exact ⟨himage, maxBlocks, inv.step hs⟩

/-- **`mem_alloc_blocks` returns** in every state reached. -/
theorem memAllocBlocks_returns {s : Sys} (h : Reach (Init kernelEnd) Step s) (size : Nat) :
    ∃ r, memAllocBlocks size s.frames = some r := by
  obtain ⟨-, maxBlocks, inv⟩ := Inv.reach h
  unfold memAllocBlocks
  split
  · exact ⟨_, rfl⟩
  · obtain ⟨r, hr⟩ := inv.sound.guarded.zone_total size
    exact ⟨_, by rw [hr]; rfl⟩

/-- **The frame allocator is sound in every state of every run** from `memman_init`. -/
theorem frames_sound {s : Sys} (h : Reach (Init kernelEnd) Step s) : Good kernelEnd s := by
  obtain ⟨⟨hstart, hend⟩, maxBlocks, inv⟩ := Inv.reach h
  obtain rfl := inv.max
  exact ⟨inv.sound.used, inv.apart, inv.below, inv.marked, fun r hr n hn hres =>
    inv.clear r hr n hn (kernelBlock_of_reserved hstart hend inv.sound.small hres)⟩

/-- A machine with four megabytes and a kernel of one page. -/
def smallMap : List MemoryRegion := [⟨0, 0x9F000, 1⟩, ⟨0x100000, 0x300000, 1⟩]

theorem boot_smallMap : Boot 0xC0001000 smallMap where
  regions := by simp [smallMap]
  image := by decide
  imageEnd := by decide
  room := by decide

def smallSys : Sys := ⟨memmanInit 0xC0001000 smallMap fun _ => 0, []⟩

theorem init_smallSys : Init 0xC0001000 smallSys :=
  @Init.mk 0xC0001000 _ (fun _ => 0) boot_smallMap

/-- The first block allocated on it. -/
theorem frames_sound_first :
    Good 0xC0001000 ⟨(memAllocBlock smallSys.frames).2,
      handOut (memAllocBlock smallSys.frames).1 1 ++ smallSys.owned⟩ :=
  frames_sound ((Reach.start init_smallSys).next .allocBlock)

end

end Memman
