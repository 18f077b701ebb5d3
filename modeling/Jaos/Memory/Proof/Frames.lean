import Jaos.Memory.Frames

/-!
# The frame allocator counts right

`Sound f`: the counter is the number of set bits below `maxBlocks`, and the bits from `maxBlocks` to
the end of its word are set. These guard bits stop the multi-block search, which has no bound of its
own: what is proved about it needs no more than them (`Guarded`). Every function keeps `Sound`;
`firstFree_spec` and `zone_spec` say that the two searches return the first clear block or zone below
`maxBlocks`, and where they look before they give up, `zone_total` that the second one ends.
-/

namespace Memman

open Lib Words

/-- The counter and the guard bits (module doc). -/
structure Sound (f : Frames) : Prop where
  used : f.usedBlocks = count f.memoryMap.bit f.maxBlocks
  guard : ∀ n, f.maxBlocks ≤ n → n < (f.maxBlocks / 64 + 1) * 64 → f.memoryMap.bit n = true
  small : f.maxBlocks < 2 ^ 52

/-- The guard bits. -/
def Guarded (f : Frames) : Prop :=
  ∀ n, f.maxBlocks ≤ n → n < (f.maxBlocks / 64 + 1) * 64 → f.memoryMap.bit n = true

section
variable {f : Frames} {n size frame i j : Nat}

theorem mmapTest_iff : mmapTest n f ↔ f.memoryMap.bit n = true := test_iff _ _

theorem clearAt_iff {i j : Nat} (hj : j < 64) :
    clearAt i j f ↔ f.memoryMap.bit (i * 64 + j) = false := by
  unfold clearAt bit
  rw [and_mask_eq_zero hj, show (i * 64 + j) / 64 = i by omega, show (i * 64 + j) % 64 = j by omega]

/-- The first block past the end is marked as used. -/
theorem Guarded.guard_bit (h : Guarded f) : f.memoryMap.bit f.maxBlocks = true :=
  h _ (Nat.le_refl _) (by omega)

theorem Sound.guarded (h : Sound f) : Guarded f := h.guard

theorem Sound.used_le (h : Sound f) : f.usedBlocks ≤ f.maxBlocks := by
  rw [h.used]
  exact count_le _ _

theorem Sound.free_count (h : Sound f) : memFreeBlockCount f = f.maxBlocks - f.usedBlocks :=
  sub64_of_le h.used_le (Nat.lt_trans h.small (by decide))

/-! ## One block -/

theorem Sound.set (h : Sound f) (hn : n < f.maxBlocks) (hc : f.memoryMap.bit n = false) :
    Sound { mmapSet n f with usedBlocks := add64 f.usedBlocks 1 } := by
  have hu := h.used_le
  have hs := h.small
  constructor
  · dsimp only [mmapSet]
    rw [count_insert hn hc (bit_set f.memoryMap n), ← h.used, add64_of_lt (by omega)]
  · intro k h1 h2
    dsimp only [mmapSet] at h1 h2 ⊢
    rw [bit_set, h.guard k h1 h2, Bool.or_true]
  · exact hs

theorem Sound.unset (h : Sound f) (hn : n < f.maxBlocks) (hb : f.memoryMap.bit n = true) :
    Sound { mmapUnset n f with usedBlocks := sub64 f.usedBlocks 1 } := by
  have hu := h.used_le
  have hs := h.small
  constructor
  · dsimp only [mmapUnset]
    have := count_erase hn hb (bit_unset f.memoryMap n)
    rw [← h.used] at this
    rw [sub64_of_le (by omega) (by omega)]
    omega
  · intro k h1 h2
    dsimp only [mmapUnset] at h1 h2 ⊢
    rw [bit_unset, h.guard k h1 h2, decide_eq_false (by omega)]
    rfl
  · exact hs

/-! ## A range of blocks -/

@[simp] theorem setRange_maxBlocks : (setRange size frame f).maxBlocks = f.maxBlocks := by
  induction size generalizing frame f with
  | zero => rfl
  | succ size ih => exact ih

@[simp] theorem setRange_usedBlocks : (setRange size frame f).usedBlocks = f.usedBlocks := by
  induction size generalizing frame f with
  | zero => rfl
  | succ size ih => exact ih

theorem bit_setRange (k : Nat) : (setRange size frame f).memoryMap.bit k =
    (decide (frame ≤ k ∧ k < frame + size) || f.memoryMap.bit k) := by
  induction size generalizing frame f with
  | zero => rw [setRange, decide_eq_false (by omega), Bool.false_or]
  | succ size ih =>
    rw [setRange, ih, mmapSet, bit_set, ← Bool.or_assoc, Bool.eq_iff_iff]
    simp only [Bool.or_eq_true, decide_eq_true_eq]
    constructor
    · rintro (h | h)
      · exact .inl (by omega)
      · exact .inr h
    · rintro (h | h)
      · exact .inl (by omega)
      · exact .inr h

theorem count_setRange (hr : frame + size ≤ f.maxBlocks)
    (hc : ∀ k, frame ≤ k → k < frame + size → f.memoryMap.bit k = false) :
    count (setRange size frame f).memoryMap.bit f.maxBlocks =
      count f.memoryMap.bit f.maxBlocks + size := by
  induction size generalizing frame f with
  | zero => rfl
  | succ size ih =>
    have h1 := count_insert (k := frame) (n := f.maxBlocks) (by omega)
      (hc frame (by omega) (by omega)) (bit_set f.memoryMap frame)
    have h2 := ih (f := mmapSet frame f) (show frame + 1 + size ≤ f.maxBlocks by omega)
      fun k hk1 hk2 => by
        dsimp only [mmapSet]
        rw [bit_set, hc k (by omega) (by omega), decide_eq_false (by omega)]
        rfl
    rw [setRange]
    dsimp only [mmapSet] at h1 h2 ⊢
    omega

@[simp] theorem unsetRange_maxBlocks : (unsetRange size frame f).maxBlocks = f.maxBlocks := by
  induction size generalizing frame f with
  | zero => rfl
  | succ size ih => exact ih

@[simp] theorem unsetRange_usedBlocks : (unsetRange size frame f).usedBlocks = f.usedBlocks := by
  induction size generalizing frame f with
  | zero => rfl
  | succ size ih => exact ih

theorem bit_unsetRange (k : Nat) : (unsetRange size frame f).memoryMap.bit k =
    (!decide (frame ≤ k ∧ k < frame + size) && f.memoryMap.bit k) := by
  induction size generalizing frame f with
  | zero => rw [unsetRange, decide_eq_false (by omega)]; rfl
  | succ size ih =>
    rw [unsetRange, ih, mmapUnset, bit_unset, ← Bool.and_assoc, Bool.eq_iff_iff]
    simp only [Bool.and_eq_true, Bool.not_eq_true', decide_eq_false_iff_not]
    constructor
    · rintro ⟨h, hb⟩
      exact ⟨by omega, hb⟩
    · rintro ⟨h, hb⟩
      exact ⟨by omega, hb⟩

theorem count_unsetRange (hr : frame + size ≤ f.maxBlocks)
    (hc : ∀ k, frame ≤ k → k < frame + size → f.memoryMap.bit k = true) :
    count (unsetRange size frame f).memoryMap.bit f.maxBlocks + size =
      count f.memoryMap.bit f.maxBlocks := by
  induction size generalizing frame f with
  | zero => rfl
  | succ size ih =>
    have h1 := count_erase (k := frame) (n := f.maxBlocks) (by omega)
      (hc frame (by omega) (by omega)) (bit_unset f.memoryMap frame)
    have h2 := ih (f := mmapUnset frame f) (show frame + 1 + size ≤ f.maxBlocks by omega)
      fun k hk1 hk2 => by
        dsimp only [mmapUnset]
        rw [bit_unset, hc k (by omega) (by omega), decide_eq_false (by omega)]
        rfl
    rw [unsetRange]
    dsimp only [mmapUnset] at h1 h2 ⊢
    omega

theorem Sound.setRange (h : Sound f) (hr : frame + size ≤ f.maxBlocks)
    (hc : ∀ k, frame ≤ k → k < frame + size → f.memoryMap.bit k = false) :
    Sound { setRange size frame f with
      usedBlocks := add64 (setRange size frame f).usedBlocks size } := by
  have hu := h.used_le
  have hs := h.small
  constructor
  · simp only [setRange_maxBlocks, setRange_usedBlocks]
    rw [count_setRange hr hc, ← h.used, add64_of_lt (by omega)]
  · intro k h1 h2
    simp only [setRange_maxBlocks] at h1 h2 ⊢
    rw [bit_setRange, h.guard k h1 h2, Bool.or_true]
  · simpa using hs

theorem Sound.unsetRange (h : Sound f) (hr : frame + size ≤ f.maxBlocks)
    (hc : ∀ k, frame ≤ k → k < frame + size → f.memoryMap.bit k = true) :
    Sound { unsetRange size frame f with
      usedBlocks := sub64 (unsetRange size frame f).usedBlocks size } := by
  have hu := h.used_le
  have hs := h.small
  have hcount := count_unsetRange hr hc
  rw [← h.used] at hcount
  constructor
  · simp only [unsetRange_maxBlocks, unsetRange_usedBlocks]
    rw [sub64_of_le (by omega) (by omega)]
    omega
  · intro k h1 h2
    simp only [unsetRange_maxBlocks] at h1 h2 ⊢
    rw [bit_unsetRange, h.guard k h1 h2, decide_eq_false (by omega)]
    rfl
  · simpa using hs

/-! ## The search for one block -/

theorem firstFreeFrom_spec {k i : Nat} :
    (f.memoryMap.bit (firstFreeFrom f k i) = false ∧ i * 64 ≤ firstFreeFrom f k i ∧
        firstFreeFrom f k i < (i + k) * 64 ∧
        ∀ n, i * 64 ≤ n → n < firstFreeFrom f k i → f.memoryMap.bit n = true) ∨
      firstFreeFrom f k i = 0 ∧ ∀ n, i * 64 ≤ n → n < (i + k) * 64 → f.memoryMap.bit n = true := by
  induction k generalizing i with
  | zero => exact .inr ⟨rfl, fun n h1 h2 => by omega⟩
  | succ k ih =>
    -- the blocks of a word that is passed over are used
    have hnext : (∀ n, i * 64 ≤ n → n < (i + 1) * 64 → f.memoryMap.bit n = true) →
        (f.memoryMap.bit (firstFreeFrom f k (i + 1)) = false ∧ i * 64 ≤ firstFreeFrom f k (i + 1) ∧
          firstFreeFrom f k (i + 1) < (i + (k + 1)) * 64 ∧
          ∀ n, i * 64 ≤ n → n < firstFreeFrom f k (i + 1) → f.memoryMap.bit n = true) ∨
        firstFreeFrom f k (i + 1) = 0 ∧
          ∀ n, i * 64 ≤ n → n < (i + (k + 1)) * 64 → f.memoryMap.bit n = true := by
      intro hword
      rcases ih (i := i + 1) with ⟨hbit, h1, h2, hfirst⟩ | ⟨h0, hall⟩
      · refine .inl ⟨hbit, by omega, by omega, fun n hn1 hn2 => ?_⟩
        by_cases hn : n < (i + 1) * 64
        · exact hword n hn1 hn
        · exact hfirst n (by omega) hn2
      · refine .inr ⟨h0, fun n hn1 hn2 => ?_⟩
        by_cases hn : n < (i + 1) * 64
        · exact hword n hn1 hn
        · exact hall n (by omega) (by omega)
    unfold firstFreeFrom
    dsimp only
    split
    · have hscan : ∀ j, j < scan (fun j => !decide (clearAt i j f)) 64 0 → j < 64 →
          f.memoryMap.bit (i * 64 + j) = true := by
        intro j hj hj64
        have := scan_before (fun j => !decide (clearAt i j f)) (Nat.zero_le j) hj
        simpa [clearAt_iff hj64] using this
      split
      · rename_i hj
        have hstop := scan_stop (fun j => !decide (clearAt i j f)) (k := 64) (i := 0) (by omega)
        simp only [Bool.not_eq_false', decide_eq_true_eq] at hstop
        refine .inl ⟨(clearAt_iff hj).1 hstop, by omega, by omega, fun n h1 h2 => ?_⟩
        have := hscan (n - i * 64) (by omega) (by omega)
        rwa [show i * 64 + (n - i * 64) = n by omega] at this
      · rename_i hj
        apply hnext
        intro n h1 h2
        have := hscan (n - i * 64) (by omega) (by omega)
        rwa [show i * 64 + (n - i * 64) = n by omega] at this
    · rename_i hfull
      apply hnext
      intro n h1 h2
      rw [bit, show n / 64 = i by omega, Decidable.not_not.1 hfull, BitVec.getLsbD_allOnes,
        decide_eq_true (Nat.mod_lt _ (by decide))]

/-- **`mmap_first_free`** returns the first clear block of the whole words; if they have none, 0. -/
theorem firstFree_first (f : Frames) :
    (f.memoryMap.bit (mmapFirstFree f) = false ∧ mmapFirstFree f < 64 * (f.maxBlocks / 64) ∧
        ∀ n < mmapFirstFree f, f.memoryMap.bit n = true) ∨
      mmapFirstFree f = 0 ∧ ∀ n < 64 * (f.maxBlocks / 64), f.memoryMap.bit n = true := by
  unfold mmapFirstFree
  rcases firstFreeFrom_spec (f := f) (k := f.maxBlocks / 64) (i := 0) with
    ⟨hbit, -, hlt, hfirst⟩ | ⟨h0, hall⟩
  · exact .inl ⟨hbit, by omega, fun n hn => hfirst n (by omega) hn⟩
  · exact .inr ⟨h0, fun n hn => hall n (by omega) (by omega)⟩

/-- `mmap_first_free` returns a clear block, or 0. -/
theorem firstFree_spec (f : Frames) :
    mmapFirstFree f = 0 ∨
      f.memoryMap.bit (mmapFirstFree f) = false ∧ mmapFirstFree f < f.maxBlocks := by
  rcases firstFree_first f with ⟨hbit, hlt, -⟩ | ⟨h0, -⟩
  · exact .inr ⟨hbit, by omega⟩
  · exact .inl h0

/-- **`mem_alloc_block`** marks a clear block and returns its address, or returns the null
pointer. -/
theorem allocBlock_spec (f : Frames) : memAllocBlock f = (0, f) ∨
    ∃ r, r ≠ 0 ∧ r < f.maxBlocks ∧ f.memoryMap.bit r = false ∧
      (memAllocBlock f).1 = r * memBlockSize ∧ (memAllocBlock f).2.maxBlocks = f.maxBlocks ∧
      ∀ k, (memAllocBlock f).2.memoryMap.bit k = (decide (k = r) || f.memoryMap.bit k) := by
  unfold memAllocBlock
  split
  · exact .inl rfl
  dsimp only
  split
  · exact .inl rfl
  · rename_i h0
    obtain ⟨hbit, hlt⟩ := (firstFree_spec f).resolve_left h0
    exact .inr ⟨_, h0, hlt, hbit, rfl, rfl, fun k => bit_set f.memoryMap _ k⟩

/-- `mem_free_block` clears the bit of one frame. -/
theorem freeBlock_spec (n : Nat) (f : Frames) :
    (memFreeBlock (n * 0x1000) f).maxBlocks = f.maxBlocks ∧ ∀ k, k ≠ n →
      (memFreeBlock (n * 0x1000) f).memoryMap.bit k = f.memoryMap.bit k := by
  unfold memFreeBlock mmapUnset
  dsimp only
  rw [Nat.mul_div_cancel _ (show 0 < Memman.memBlockSize by decide)]
  exact ⟨rfl, fun k hk => by rw [bit_unset, decide_eq_false hk]; rfl⟩

/-! ## The search for a zone -/

/-- The `size` blocks from `r` on are clear. -/
def ClearFrom (f : Frames) (size r : Nat) : Prop :=
  ∀ k, r ≤ k → k < r + size → f.memoryMap.bit k = false

/-- The zone of `size` blocks at `r` is clear and ends below `maxBlocks`. -/
def ZoneOk (f : Frames) (size r : Nat) : Prop := r + size ≤ f.maxBlocks ∧ ClearFrom f size r

/-- The search goes on in the last, partial word: only a zone that is too small and ends there leads
to it. -/
def EntersLast (f : Frames) : Prop :=
  0 < f.maxBlocks / 64 ∧ f.memoryMap.bit (64 * (f.maxBlocks / 64) - 1) = false

/-- `r` is the first clear zone, in the blocks that are searched. -/
structure ZoneFound (f : Frames) (size r : Nat) : Prop where
  zone : ZoneOk f size r
  first : ∀ r' < r, ¬ ClearFrom f size r'
  searched : r < 64 * (f.maxBlocks / 64) ∨ EntersLast f

/-- No block that is searched starts a clear zone. -/
structure ZoneNone (f : Frames) (size : Nat) : Prop where
  words : ∀ r < 64 * (f.maxBlocks / 64), ¬ ClearFrom f size r
  last : EntersLast f → ∀ r < f.maxBlocks, ¬ ClearFrom f size r

/-- What the search may return. -/
def ZoneResult (f : Frames) (size r : Nat) : Prop := ZoneFound f size r ∨ r = 0 ∧ ZoneNone f size

/-- Where the two loops are: at bit `j` of word `i` everything before has been ruled out. -/
structure Searched (f : Frames) (size i j : Nat) : Prop where
  word : i ≤ f.maxBlocks / 64
  bit : j ≤ 64
  before : ∀ r < i * 64 + j, ¬ ClearFrom f size r
  enters : i = f.maxBlocks / 64 → EntersLast f
  passed : 0 < j → f.memoryMap.bit (i * 64 + j - 1) = true

/-- A used block is in no clear zone. -/
theorem not_clearFrom {r k : Nat} (hk : f.memoryMap.bit k = true) (h1 : r ≤ k) (h2 : k < r + size) :
    ¬ ClearFrom f size r := by
  intro h
  rw [h k h1 h2] at hk
  cases hk

/-- What the scan of the blocks from a clear one on finds: a zone, or a used block that is no
further than the first guard bit. -/
theorem Guarded.zone_scan (h : Guarded f) (size : Nat) {i j : Nat} (hi : i ≤ f.maxBlocks / 64)
    (hj : j < 64) (hc : clearAt i j f) :
    (scan (fun c => !decide (mmapTest (i * 64 + j + c) f)) size 0 = size →
        ZoneOk f size (i * 64 + j)) ∧
      i * 64 + j + scan (fun c => !decide (mmapTest (i * 64 + j + c) f)) size 0 ≤ f.maxBlocks := by
  have hclear := (clearAt_iff hj).1 hc
  have hlow : i * 64 + j < f.maxBlocks := by
    refine Nat.lt_of_not_le fun hge => ?_
    rw [h _ hge (by omega)] at hclear
    cases hclear
  have hbefore : ∀ k, i * 64 + j ≤ k →
      k < i * 64 + j + scan (fun c => !decide (mmapTest (i * 64 + j + c) f)) size 0 →
      f.memoryMap.bit k = false := by
    intro k h1 h2
    have := scan_before (fun c => !decide (mmapTest (i * 64 + j + c) f)) (k := size)
      (Nat.zero_le (k - (i * 64 + j))) (by omega)
    simpa [mmapTest_iff, show i * 64 + j + (k - (i * 64 + j)) = k by omega] using this
  have hend : i * 64 + j + scan (fun c => !decide (mmapTest (i * 64 + j + c) f)) size 0 ≤
      f.maxBlocks := by
    refine Nat.le_of_not_lt fun hlt => ?_
    have := hbefore f.maxBlocks (by omega) hlt
    rw [h.guard_bit] at this
    cases this
  exact ⟨fun hs => by rw [hs] at hbefore hend; exact ⟨hend, hbefore⟩, hend⟩

/-- **The jump past a zone that is too small** skips no candidate: each would contain the used block
that ends the zone. -/
theorem Searched.jump (s : Searched f size i j) (h : Guarded f) (hj : j < 64) (hc : clearAt i j f)
    {c : Nat} (he : scan (fun c => !decide (mmapTest (i * 64 + j + c) f)) size 0 = c)
    (hne : c ≠ size) : Searched f size ((i * 64 + j + c) / 64) ((i * 64 + j + c) % 64 + 1) := by
  subst he
  have hend := (h.zone_scan size s.word hj hc).2
  have hlt := (scan_le (fun c => !decide (mmapTest (i * 64 + j + c) f)) size 0).2
  have hstop := scan_stop (fun c => !decide (mmapTest (i * 64 + j + c) f)) (k := size) (i := 0)
    (by omega)
  have hbefore : ∀ k, k < scan (fun c => !decide (mmapTest (i * 64 + j + c) f)) size 0 →
      f.memoryMap.bit (i * 64 + j + k) = false := fun k hk => by
    simpa [mmapTest_iff] using
      scan_before (fun c => !decide (mmapTest (i * 64 + j + c) f)) (Nat.zero_le k) hk
  simp only [Bool.not_eq_false', decide_eq_true_eq] at hstop
  rw [mmapTest_iff] at hstop
  generalize scan (fun c => !decide (mmapTest (i * 64 + j + c) f)) size 0 = c
    at hend hlt hstop hbefore hne ⊢
  refine ⟨by omega, by omega, fun r hr => ?_, fun hw => ?_, fun _ => ?_⟩
  · by_cases hr' : r < i * 64 + j
    · exact s.before r hr'
    · exact not_clearFrom hstop (by omega) (by omega)
  · by_cases hi : i = f.maxBlocks / 64
    · exact s.enters hi
    · have hword := s.word
      refine ⟨by omega, ?_⟩
      have := hbefore (64 * (f.maxBlocks / 64) - 1 - (i * 64 + j)) (by omega)
      rwa [show i * 64 + j + (64 * (f.maxBlocks / 64) - 1 - (i * 64 + j)) =
        64 * (f.maxBlocks / 64) - 1 by omega] at this
  · rwa [show (i * 64 + j + c) / 64 * 64 + ((i * 64 + j + c) % 64 + 1) - 1 = i * 64 + j + c by omega]

/-- A used block is stepped over. -/
theorem Searched.skip (s : Searched f size i j) (hs : 0 < size) (hj : j < 64)
    (hc : ¬ clearAt i j f) : Searched f size i (j + 1) := by
  rw [clearAt_iff hj, Bool.not_eq_false] at hc
  refine ⟨s.word, hj, fun r hr => ?_, s.enters, fun _ => hc⟩
  by_cases hr' : r < i * 64 + j
  · exact s.before r hr'
  · exact not_clearFrom hc (by omega) (by omega)

/-- The end of a word. -/
theorem Searched.zoneOuter {inner : Nat → Nat → Option Nat} {r : Nat} (hs : 0 < size)
    (hin : ∀ i j, Searched f size i j → inner i j = some r → ZoneResult f size r)
    (hi : i ≤ f.maxBlocks / 64 + 1) (before : ∀ r < i * 64, ¬ ClearFrom f size r)
    (passed : 0 < i → f.memoryMap.bit (i * 64 - 1) = true)
    (hr : zoneOuter f inner i = some r) : ZoneResult f size r := by
  unfold Memman.zoneOuter at hr
  split at hr
  · rename_i hlt
    split at hr
    · exact hin i 0 ⟨Nat.le_of_lt hlt, by omega, before, fun _ => by omega, nofun⟩ hr
    · rename_i hfull
      have hall : ∀ n, i * 64 ≤ n → n < i * 64 + 64 → f.memoryMap.bit n = true := by
        intro n h1 h2
        rw [Words.bit, show n / 64 = i by omega, Decidable.not_not.1 hfull, BitVec.getLsbD_allOnes,
          decide_eq_true (Nat.mod_lt _ (by decide))]
      refine hin i 64 ⟨Nat.le_of_lt hlt, Nat.le_refl _, fun r hr => ?_, fun _ => by omega,
        fun _ => hall _ (by omega) (by omega)⟩ hr
      by_cases hr' : r < i * 64
      · exact before r hr'
      · exact not_clearFrom (hall r (by omega) hr) (Nat.le_refl _) (by omega)
  · rename_i hge
    cases hr
    refine .inr ⟨rfl, fun r hr => before r (by omega), fun hl r hr => ?_⟩
    by_cases he : i = f.maxBlocks / 64
    · -- the last whole word ends with a used block
      have := passed (he ▸ hl.1)
      rw [he, Nat.mul_comm, hl.2] at this
      cases this
    · exact before r (by omega)

theorem Guarded.zoneInner_spec (h : Guarded f) (hs : 0 < size) {fuel r : Nat}
    (s : Searched f size i j) (hr : zoneInner f size fuel i j = some r) : ZoneResult f size r := by
  induction fuel generalizing i j with
  | zero => cases hr
  | succ fuel ih =>
    unfold zoneInner at hr
    dsimp only at hr
    split at hr
    · rename_i hj
      split at hr
      · rename_i hc
        split at hr
        · rename_i he
          cases hr
          refine .inl ⟨(h.zone_scan size s.word hj hc).1 he, s.before, ?_⟩
          by_cases hi : i = f.maxBlocks / 64
          · exact .inr (s.enters hi)
          · have := s.word
            exact .inl (by omega)
        · rename_i hne
          exact ih (s.jump h hj hc rfl hne) hr
      · rename_i hc
        exact ih (s.skip hs hj hc) hr
    · have hj : j = 64 := Nat.le_antisymm s.bit (by omega)
      subst hj
      have hw := s.word
      refine Searched.zoneOuter hs (fun i j s hr => ih s hr) (by omega) (fun r hr => ?_)
        (fun _ => ?_) hr
      · exact s.before r (by omega)
      · have := s.passed (by decide)
        rwa [show i * 64 + 64 - 1 = (i + 1) * 64 - 1 by omega] at this

/-- **`mmap_first_free_zone`** returns the first clear zone that it looks at, or 0. -/
theorem Guarded.zone_first (h : Guarded f) (hs : 2 ≤ size) {r : Nat}
    (hr : mmapFirstFreeZone size f = some r) : ZoneResult f size r := by
  unfold mmapFirstFreeZone at hr
  rw [if_neg (by omega), if_neg (by omega)] at hr
  exact Searched.zoneOuter (by omega) (fun i j s hr => h.zoneInner_spec (by omega) s hr)
    (Nat.zero_le _) (fun r hr => by omega) (fun h0 => absurd h0 (Nat.lt_irrefl 0)) hr

/-- `mmap_first_free_zone` returns a clear zone, or 0. -/
theorem Guarded.zone_spec (h : Guarded f) {r : Nat} (hr : mmapFirstFreeZone size f = some r) :
    r = 0 ∨ ZoneOk f size r := by
  by_cases hs : 2 ≤ size
  · exact (h.zone_first hs hr).symm.imp And.left ZoneFound.zone
  · unfold mmapFirstFreeZone at hr
    split at hr
    · cases hr
      exact .inl rfl
    · rw [if_pos (by omega)] at hr
      cases hr
      refine (firstFree_spec f).imp_right fun ⟨hc, hlt⟩ => ⟨by omega, fun k h2 h3 => ?_⟩
      obtain rfl : k = mmapFirstFree f := by omega
      exact hc

theorem Guarded.zoneInner_total (h : Guarded f) {fuel i j : Nat} (hi : i ≤ f.maxBlocks / 64)
    (hj : j ≤ 64) (hfuel : 65 * (f.maxBlocks / 64) + 65 < fuel + (65 * i + j)) :
    ∃ r, zoneInner f size fuel i j = some r := by
  -- every step moves to a later bit, counted as `65 * i + j`
  induction fuel generalizing i j with
  | zero => omega
  | succ fuel ih =>
    unfold zoneInner
    dsimp only
    split
    · rename_i hj'
      split
      · rename_i hc
        obtain ⟨-, hend⟩ := h.zone_scan size hi hj' hc
        split
        · exact ⟨_, rfl⟩
        · exact ih (by omega) (by omega) (by omega)
      · exact ih hi (by omega) (by omega)
    · unfold zoneOuter
      split
      · split
        · exact ih (by omega) (by omega) (by omega)
        · exact ih (by omega) (by omega) (by omega)
      · exact ⟨_, rfl⟩

/-- **The multi-block search ends.** -/
theorem Guarded.zone_total (h : Guarded f) (size : Nat) : ∃ r, mmapFirstFreeZone size f = some r := by
  unfold mmapFirstFreeZone
  split
  · exact ⟨_, rfl⟩
  · split
    · exact ⟨_, rfl⟩
    · unfold zoneOuter zoneFuel
      split
      · split
        · exact h.zoneInner_total (by omega) (by omega) (by omega)
        · exact h.zoneInner_total (by omega) (by omega) (by omega)
      · exact ⟨_, rfl⟩

end

end Memman
