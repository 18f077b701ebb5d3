import Jaos.Memory.FrameRun

/-!
# The memory that `memman_init` frees

The entries of the BIOS memory map are worked off in their order. An available entry opens its
blocks from the first on, and is stuck at the first one that is free already (`Opens`); the blocks
left are those of its size from the block its start is in on, both rounded down. `free_iff` says
which blocks are free in the end.

The map says so too, without the bitmap: going up the blocks, an entry is in force from its first block
on until it ends or an entry before it in the map starts (`inForce`), and the free blocks are those with
an entry in force (`opened_iff_inForce`). `init_frees_usable_iff`: when all of them are usable memory;
`init_frees_all_iff`: when all the usable memory is free.
-/

namespace Memman

open Lib Words

namespace MemoryRegion

def HasByte (r : MemoryRegion) (b : Nat) : Prop := r.start ≤ b ∧ b < r.start + r.size

def firstBlock (r : MemoryRegion) : Nat := r.start / memBlockSize

/-- One of the blocks that `mem_init_region` counts. -/
def HasBlock (r : MemoryRegion) (n : Nat) : Prop :=
  r.firstBlock ≤ n ∧ n < r.firstBlock + r.size / memBlockSize

instance (r : MemoryRegion) (n : Nat) : Decidable (r.HasBlock n) :=
  inferInstanceAs (Decidable (_ ∧ _))

/-- All the bytes of block `n` belong to the entry. -/
def Holds (r : MemoryRegion) (n : Nat) : Prop :=
  r.start ≤ n * memBlockSize ∧ (n + 1) * memBlockSize ≤ r.start + r.size

/-- The entry opens block `n`, when the blocks of `free` are free before. -/
def Opens (r : MemoryRegion) (free : Nat → Prop) (n : Nat) : Prop :=
  r.type = 1 ∧ r.HasBlock n ∧ ∀ m, r.firstBlock ≤ m → m ≤ n → ¬ free m

end MemoryRegion

section
variable (memoryMap : List MemoryRegion)

/-- Entry number `i` is available and counts block `n`. -/
def counts (i n : Nat) : Bool := memoryMap[i]?.any fun r => decide (r.type = 1 ∧ r.HasBlock n)

/-- Block `n` is the first that it counts. -/
def starts (i n : Nat) : Bool :=
  memoryMap[i]?.any fun r => decide ((r.type = 1 ∧ r.HasBlock n) ∧ r.firstBlock = n)

/-- The entry in force at a block: the first one in the map that starts there, or that was in force at
the block below and still counts this one. -/
def inForce : Nat → Option Nat
  | 0 => (List.range memoryMap.length).find? fun i => starts memoryMap i 0
  | n + 1 => (List.range memoryMap.length).find? fun i =>
    starts memoryMap i (n + 1) || (inForce n == some i && counts memoryMap i (n + 1))

end

/-- The blocks that are free after the entries. -/
def freeAfter (free : Nat → Prop) : List MemoryRegion → Nat → Prop
  | [] => free
  | r :: l => freeAfter (fun n => free n ∨ r.Opens free n) l

/-- The blocks that the entries open, one after the other. -/
def Opened : List MemoryRegion → Nat → Prop := freeAfter fun _ => False

/-- Byte `b` is one of block `n`. -/
def ByteOf (n b : Nat) : Prop := n * memBlockSize ≤ b ∧ b < (n + 1) * memBlockSize

/-- Byte `b` is available memory. -/
def Available (memoryMap : List MemoryRegion) (b : Nat) : Prop :=
  ∃ r ∈ memoryMap, r.type = 1 ∧ r.HasByte b

/-- Byte `b` is of another type. -/
def Unusable (memoryMap : List MemoryRegion) (b : Nat) : Prop :=
  ∃ r ∈ memoryMap, r.type ≠ 1 ∧ r.HasByte b

/-- Block `n` is in the bitmap and not marked by hand. -/
def Ordinary (kernelEnd : Nat) (memoryMap : List MemoryRegion) (n : Nat) : Prop :=
  n / 64 ≤ limit memoryMap / memBlockSize / 64 ∧
    ¬ KernelBlock kernelEnd (limit memoryMap / memBlockSize) n

/-! ## The entries -/

section
variable {f : Frames} {free free' : Nat → Prop} {memoryMap : List MemoryRegion} {n : Nat}

theorem freeAfter_congr (h : ∀ m ≤ n, free m ↔ free' m) :
    freeAfter free memoryMap n ↔ freeAfter free' memoryMap n := by
  induction memoryMap generalizing free free' with
  | nil => exact h n (Nat.le_refl n)
  | cons r l ih =>
    refine ih fun m hm => or_congr (h m hm) ?_
    unfold MemoryRegion.Opens
    refine and_congr_right fun _ => and_congr_right fun _ => ?_
    exact ⟨fun H k h1 h2 => mt (h k (by omega)).2 (H k h1 h2),
      fun H k h1 h2 => mt (h k (by omega)).1 (H k h1 h2)⟩

/-- **A block is free at the end** if it was free or some entry opens it, in its turn. -/
theorem freeAfter_iff : freeAfter free memoryMap n ↔ free n ∨
    ∃ before r after, memoryMap = before ++ r :: after ∧ r.Opens (freeAfter free before) n := by
  induction memoryMap generalizing free with
  | nil => simp [freeAfter]
  | cons r l ih =>
    rw [freeAfter, ih, or_assoc]
    refine or_congr_right ?_
    constructor
    · rintro (h | ⟨before, r', after, rfl, h⟩)
      · exact ⟨[], r, l, rfl, h⟩
      · exact ⟨r :: before, r', after, rfl, h⟩
    · rintro ⟨before, r', after, he, h⟩
      cases before with
      | nil =>
        obtain ⟨rfl, rfl⟩ := List.cons.inj he
        exact .inl h
      | cons r0 before =>
        obtain ⟨rfl, rfl⟩ := List.cons.inj he
        exact .inr ⟨before, r', after, rfl, h⟩

theorem opened_iff : Opened memoryMap n ↔
    ∃ before r after, memoryMap = before ++ r :: after ∧ r.Opens (Opened before) n :=
  freeAfter_iff.trans (or_iff_right id)

/-- A block that starts every entry it is in gets opened. -/
theorem opened_of_first (hsome : ∃ r ∈ memoryMap, r.type = 1 ∧ r.HasBlock n)
    (hfirst : ∀ r ∈ memoryMap, r.type = 1 → r.HasBlock n → r.firstBlock = n) :
    freeAfter free memoryMap n := by
  induction memoryMap generalizing free with
  | nil =>
    obtain ⟨r, hr, -⟩ := hsome
    cases hr
  | cons r l ih =>
    by_cases hr : r.type = 1 ∧ r.HasBlock n
    · -- this entry opens it, or finds it free
      have : free n ∨ r.Opens free n := by
        by_cases hf : free n
        · exact .inl hf
        · refine .inr ⟨hr.1, hr.2, fun m h1 h2 => ?_⟩
          have := hfirst r List.mem_cons_self hr.1 hr.2
          obtain rfl : m = n := by omega
          exact hf
      rw [freeAfter]
      exact freeAfter_iff.2 (.inl this)
    · obtain ⟨r', hr', h⟩ := hsome
      rcases List.mem_cons.1 hr' with rfl | hr'
      · exact absurd h hr
      · exact ih ⟨r', hr', h⟩ fun r'' h'' => hfirst r'' (List.mem_cons_of_mem _ h'')

/-! ## The entry in force -/

/-- Entry number `i` opens block `n`. -/
def OpenedBy (memoryMap : List MemoryRegion) (i n : Nat) : Prop :=
  ∃ r, memoryMap[i]? = some r ∧ r.Opens (Opened (memoryMap.take i)) n

theorem counts_iff {i : Nat} : counts memoryMap i n = true ↔
    ∃ r, memoryMap[i]? = some r ∧ r.type = 1 ∧ r.HasBlock n := by
  unfold counts
  rw [Option.any_eq_true]
  simp only [decide_eq_true_eq]

theorem starts_iff {i : Nat} : starts memoryMap i n = true ↔
    ∃ r, memoryMap[i]? = some r ∧ (r.type = 1 ∧ r.HasBlock n) ∧ r.firstBlock = n := by
  unfold starts
  rw [Option.any_eq_true]
  simp only [decide_eq_true_eq]

theorem opened_iff_openedBy : Opened memoryMap n ↔ ∃ i, OpenedBy memoryMap i n := by
  rw [opened_iff]
  constructor
  · rintro ⟨before, r, after, rfl, h⟩
    refine ⟨before.length, r, by simp, ?_⟩
    rwa [List.take_left]
  · rintro ⟨i, r, hr, h⟩
    obtain ⟨hi, rfl⟩ := List.getElem?_eq_some_iff.1 hr
    exact ⟨memoryMap.take i, memoryMap[i], memoryMap.drop (i + 1), by simp, h⟩

/-- The entries before number `i` open a block. -/
theorem opened_take_iff {i m : Nat} :
    Opened (memoryMap.take i) m ↔ ∃ j < i, OpenedBy memoryMap j m := by
  rw [opened_iff_openedBy]
  unfold OpenedBy
  constructor
  · rintro ⟨j, r, hr, h⟩
    rw [List.getElem?_take] at hr
    split at hr
    · next hj =>
      rw [List.take_take, Nat.min_eq_left (Nat.le_of_lt hj)] at h
      exact ⟨j, hj, r, hr, h⟩
    · cases hr
  · rintro ⟨j, hj, r, hr, h⟩
    refine ⟨j, r, by rw [List.getElem?_take, if_pos hj, hr], ?_⟩
    rwa [List.take_take, Nat.min_eq_left (Nat.le_of_lt hj)]

/-- An entry opens a block that it counts if none before it opens one from its first block up to there. -/
theorem openedBy_iff {i : Nat} : OpenedBy memoryMap i n ↔
    ∃ r, memoryMap[i]? = some r ∧ (r.type = 1 ∧ r.HasBlock n) ∧
      ∀ m, r.firstBlock ≤ m → m ≤ n → ∀ j < i, ¬ OpenedBy memoryMap j m := by
  refine exists_congr fun r => and_congr_right fun _ => ?_
  unfold MemoryRegion.Opens
  simp only [opened_take_iff, not_exists, not_and, and_assoc]

theorem openedBy_unique {i j : Nat} (hi : OpenedBy memoryMap i n) (hj : OpenedBy memoryMap j n) :
    i = j := by
  obtain ⟨r, -, ⟨-, hri⟩, hbefore⟩ := openedBy_iff.1 hi
  obtain ⟨q, -, ⟨-, hqj⟩, hbefore'⟩ := openedBy_iff.1 hj
  rcases Nat.lt_trichotomy i j with h | h | h
  · exact absurd hi (hbefore' n hqj.1 (Nat.le_refl n) i h)
  · exact h
  · exact absurd hj (hbefore n hri.1 (Nat.le_refl n) j h)

/-- A block where an entry starts is opened by it or by one before it. -/
theorem openedBy_of_starts {j : Nat} (h : starts memoryMap j n = true) :
    ∃ i ≤ j, OpenedBy memoryMap i n := by
  obtain ⟨r, hr, hcount, hfirst⟩ := starts_iff.1 h
  by_cases hb : ∃ i < j, OpenedBy memoryMap i n
  · obtain ⟨i, hi, h⟩ := hb
    exact ⟨i, Nat.le_of_lt hi, h⟩
  · refine ⟨j, Nat.le_refl j, openedBy_iff.2 ⟨r, hr, hcount, fun m h1 h2 i hi hm => hb ⟨i, hi, ?_⟩⟩⟩
    rwa [show n = m by omega]

/-- An entry that goes on is opened by itself or by one before it. -/
theorem openedBy_succ {j : Nat} (h : OpenedBy memoryMap j n) (hc : counts memoryMap j (n + 1) = true) :
    ∃ i ≤ j, OpenedBy memoryMap i (n + 1) := by
  obtain ⟨r, hr, -, hbefore⟩ := openedBy_iff.1 h
  obtain ⟨q, hq, hcount⟩ := counts_iff.1 hc
  obtain rfl : r = q := Option.some.inj (hr.symm.trans hq)
  by_cases hb : ∃ i < j, OpenedBy memoryMap i (n + 1)
  · obtain ⟨i, hi, h⟩ := hb
    exact ⟨i, Nat.le_of_lt hi, h⟩
  · refine ⟨j, Nat.le_refl j, openedBy_iff.2 ⟨r, hr, hcount, fun m h1 h2 i hi h => ?_⟩⟩
    rcases Nat.lt_or_ge m (n + 1) with hlt | hge
    · exact hbefore m h1 (by omega) i hi h
    · obtain rfl : m = n + 1 := by omega
      exact hb ⟨i, hi, h⟩

/-- An entry that opens a block starts there or has opened the block below. -/
theorem openedBy_pred {i : Nat} (h : OpenedBy memoryMap i n) :
    starts memoryMap i n = true ∨
      ∃ k, n = k + 1 ∧ OpenedBy memoryMap i k ∧ counts memoryMap i n = true := by
  obtain ⟨r, hr, hcount, hbefore⟩ := openedBy_iff.1 h
  by_cases hfirst : r.firstBlock = n
  · exact .inl (starts_iff.2 ⟨r, hr, hcount, hfirst⟩)
  · obtain ⟨h1, h2⟩ := hcount.2
    obtain ⟨k, rfl⟩ : ∃ k, n = k + 1 := ⟨n - 1, by omega⟩
    refine .inr ⟨k, rfl, openedBy_iff.2 ⟨r, hr, ⟨hcount.1, by omega, by omega⟩,
      fun m h1 h2 => hbefore m h1 (by omega)⟩, counts_iff.2 ⟨r, hr, hcount⟩⟩

/-- The first candidate is the entry that opens the block, if that is a candidate and no candidate stands
before it. -/
theorem find_openedBy {p : Nat → Bool} (hp : ∀ j, OpenedBy memoryMap j n → p j = true)
    (hfirst : ∀ j, p j = true → ∃ i ≤ j, OpenedBy memoryMap i n) (i : Nat) :
    (List.range memoryMap.length).find? p = some i ↔ OpenedBy memoryMap i n := by
  rw [List.find?_range_eq_some]
  constructor
  · rintro ⟨hi, -, hbefore⟩
    obtain ⟨j, hj, h⟩ := hfirst i hi
    rcases Nat.lt_or_eq_of_le hj with hlt | rfl
    · have := hbefore j hlt
      rw [hp j h] at this
      cases this
    · exact h
  · intro h
    obtain ⟨r, hr, -⟩ := openedBy_iff.1 h
    refine ⟨hp i h, List.mem_range.2 (List.getElem?_eq_some_iff.1 hr).1, fun j hj => ?_⟩
    rw [Bool.not_eq_true', Bool.eq_false_iff]
    intro hpj
    obtain ⟨l, hl, h'⟩ := hfirst j hpj
    have := openedBy_unique h h'
    omega

/-- **The entry in force** is the one that opens the block. -/
theorem inForce_eq_some_iff {i : Nat} : inForce memoryMap n = some i ↔ OpenedBy memoryMap i n := by
  induction n generalizing i with
  | zero =>
    refine find_openedBy (fun j h => ?_) (fun j h => openedBy_of_starts h) i
    rcases openedBy_pred h with h | ⟨k, hk, -⟩
    · exact h
    · cases hk
  | succ n ih =>
    refine find_openedBy (fun j h => ?_) (fun j h => ?_) i
    · rw [Bool.or_eq_true, Bool.and_eq_true, beq_iff_eq]
      rcases openedBy_pred h with h | ⟨k, hk, h, hc⟩
      · exact .inl h
      · cases hk
        exact .inr ⟨ih.2 h, hc⟩
    · rw [Bool.or_eq_true, Bool.and_eq_true, beq_iff_eq] at h
      rcases h with h | ⟨h, hc⟩
      · exact openedBy_of_starts h
      · exact openedBy_succ (ih.1 h) hc

/-- **The blocks that the entries open** are those with an entry in force. -/
theorem opened_iff_inForce : Opened memoryMap n ↔ ∃ i, inForce memoryMap n = some i := by
  simp only [opened_iff_openedBy, inForce_eq_some_iff]

/-- In a map whose available entries share no block every entry is in force wherever it counts. -/
theorem inForce_of_disjoint (h : ∀ i j m, counts memoryMap i m = true → counts memoryMap j m = true → i = j)
    {i : Nat} : inForce memoryMap n = some i ↔ counts memoryMap i n = true := by
  rw [inForce_eq_some_iff, openedBy_iff, counts_iff]
  refine exists_congr fun r => and_congr_right fun hr => and_iff_left_of_imp fun hcount m h1 h2 j hj hm => ?_
  obtain ⟨q, hq, hqm, -⟩ := openedBy_iff.1 hm
  have hi : counts memoryMap i m = true := by
    refine counts_iff.2 ⟨r, hr, hcount.1, h1, ?_⟩
    have := hcount.2.2
    omega
  have := h i j m hi (counts_iff.2 ⟨q, hq, hqm⟩)
  omega

/-- No entry is in force where none starts and none goes on. -/
theorem not_opened_iff : ¬ Opened memoryMap n ↔ (∀ i, starts memoryMap i n = false) ∧
    ∀ k i, n = k + 1 → inForce memoryMap k = some i → counts memoryMap i n = false := by
  rw [opened_iff_openedBy, not_exists]
  constructor
  · intro h
    refine ⟨fun i => Bool.eq_false_iff.2 fun hs => ?_, fun k i hk hi => Bool.eq_false_iff.2 fun hc => ?_⟩
    · obtain ⟨j, -, hj⟩ := openedBy_of_starts hs
      exact h j hj
    · subst hk
      obtain ⟨j, -, hj⟩ := openedBy_succ (inForce_eq_some_iff.1 hi) hc
      exact h j hj
  · rintro ⟨hs, hg⟩ i h
    rcases openedBy_pred h with h | ⟨k, hk, h, hc⟩
    · rw [hs i] at h
      cases h
    · rw [hg k i hk (inForce_eq_some_iff.2 h)] at hc
      cases hc

/-- Where no entry starts, the one in force has been so before. -/
theorem inForce_back {i m : Nat} (hnm : n ≤ m) (hi : inForce memoryMap m = some i)
    (hs : ∀ k, n < k → k ≤ m → ∀ j, starts memoryMap j k = false) :
    inForce memoryMap n = some i ∧ (n < m → counts memoryMap i (n + 1) = true) := by
  induction m with
  | zero =>
    obtain rfl : n = 0 := by omega
    exact ⟨hi, fun h => absurd h (Nat.lt_irrefl 0)⟩
  | succ m ih =>
    rcases Nat.eq_or_lt_of_le hnm with rfl | hlt
    · exact ⟨hi, fun h => absurd h (Nat.lt_irrefl _)⟩
    · rcases openedBy_pred (inForce_eq_some_iff.1 hi) with h | ⟨k, hk, h, hc⟩
      · rw [hs (m + 1) hlt (Nat.le_refl _) i] at h
        cases h
      · cases hk
        obtain ⟨h1, h2⟩ := ih (by omega) (inForce_eq_some_iff.2 h) fun k hk1 hk2 => hs k hk1 (by omega)
        refine ⟨h1, fun _ => ?_⟩
        rcases Nat.eq_or_lt_of_le (show n ≤ m by omega) with rfl | hlt'
        · exact hc
        · exact h2 hlt'

/-- **From the last start on** the entry in force goes on, or ends. -/
theorem inForce_or_ends {s m : Nat} {j : Nat} (hsm : s ≤ m) (hs : starts memoryMap j s = true) :
    (∃ i, inForce memoryMap m = some i) ∨
      ∃ n i, n < m ∧ inForce memoryMap n = some i ∧ counts memoryMap i (n + 1) = false ∧
        ∀ k, n < k → k ≤ m → ∀ j, starts memoryMap j k = false := by
  induction m with
  | zero =>
    obtain rfl : s = 0 := by omega
    obtain ⟨i, -, h⟩ := openedBy_of_starts hs
    exact .inl ⟨i, inForce_eq_some_iff.2 h⟩
  | succ m ih =>
    by_cases hstart : ∃ l, starts memoryMap l (m + 1) = true
    · obtain ⟨l, hl⟩ := hstart
      obtain ⟨i, -, h⟩ := openedBy_of_starts hl
      exact .inl ⟨i, inForce_eq_some_iff.2 h⟩
    · have hnone : ∀ l, starts memoryMap l (m + 1) = false := fun l =>
        Bool.eq_false_iff.2 fun h => hstart ⟨l, h⟩
      have hlt : s ≤ m := by
        rcases Nat.eq_or_lt_of_le hsm with rfl | h
        · rw [hnone j] at hs
          cases hs
        · omega
      rcases ih hlt with ⟨i, hi⟩ | ⟨n, i, hn, hi, hc, hs'⟩
      · rcases hc : counts memoryMap i (m + 1) with _ | _
        · refine .inr ⟨m, i, Nat.lt_succ_self m, hi, hc, fun k h1 h2 => ?_⟩
          obtain rfl : k = m + 1 := by omega
          exact hnone
        · obtain ⟨l, -, h⟩ := openedBy_succ (inForce_eq_some_iff.1 hi) hc
          exact .inl ⟨l, inForce_eq_some_iff.2 h⟩
      · refine .inr ⟨n, i, by omega, hi, hc, fun k h1 h2 => ?_⟩
        rcases Nat.eq_or_lt_of_le h2 with rfl | h2
        · exact hnone
        · exact hs' k h1 (by omega)

/-! ## The bits -/

theorem initRegionFrom_free (k a : Nat) : (initRegionFrom k a f).memoryMap.bit n = false ↔
    f.memoryMap.bit n = false ∨
      (a ≤ n ∧ n < a + k) ∧ ∀ m, a ≤ m → m ≤ n → ¬ f.memoryMap.bit m = false := by
  induction k generalizing a f with
  | zero =>
    refine (or_iff_left ?_).symm
    omega
  | succ k ih =>
    unfold initRegionFrom
    split
    · rename_i ht
      rw [mmapTest_iff] at ht
      rw [ih]
      dsimp only [mmapUnset]
      simp only [bit_unset, Bool.and_eq_false_imp, Bool.not_eq_true', decide_eq_false_iff_not]
      constructor
      · rintro (h | ⟨⟨h1, h2⟩, h⟩)
        · by_cases hn : n = a
          · subst hn
            refine .inr ⟨by omega, fun m h1 h2 => ?_⟩
            obtain rfl : m = n := by omega
            rw [ht]
            decide
          · exact .inl (h hn)
        · refine .inr ⟨by omega, fun m hm1 hm2 => ?_⟩
          by_cases hm : m = a
          · rw [hm, ht]
            decide
          · exact fun hf => h m (by omega) hm2 fun _ => hf
      · rintro (h | ⟨⟨h1, h2⟩, h⟩)
        · exact .inl fun _ => h
        · by_cases hn : n = a
          · exact .inl fun hne => absurd hn hne
          · exact .inr ⟨by omega, fun m hm1 hm2 hf => h m (by omega) hm2 (hf (by omega))⟩
    · -- a free block is tested again until the count runs out
      rename_i ht
      rw [mmapTest_iff, Bool.not_eq_true] at ht
      rw [ih]
      refine or_congr_right ⟨?_, ?_⟩
      · rintro ⟨⟨h1, -⟩, h⟩
        exact absurd ht (h a (Nat.le_refl a) h1)
      · rintro ⟨⟨h1, -⟩, h⟩
        exact absurd ht (h a (Nat.le_refl a) h1)

theorem regions_free (memoryMap : List MemoryRegion) (f : Frames) : (memoryMap.foldl
      (fun f r => if r.type = 1 then memInitRegion r.start r.size f else f) f).memoryMap.bit n =
        false ↔ freeAfter (fun n => f.memoryMap.bit n = false) memoryMap n := by
  induction memoryMap generalizing f with
  | nil => exact Iff.rfl
  | cons r l ih =>
    rw [List.foldl_cons, ih]
    refine freeAfter_congr fun m _ => ?_
    unfold MemoryRegion.Opens
    split
    · rename_i ht
      rw [memInitRegion, initRegionFrom_free]
      exact or_congr_right ⟨fun h => ⟨ht, h⟩, And.right⟩
    · rename_i ht
      exact (or_iff_left fun h => ht h.1).symm

@[simp] theorem initRegionFrom_maxBlocks {k a : Nat} :
    (initRegionFrom k a f).maxBlocks = f.maxBlocks := by
  induction k generalizing a f with
  | zero => rfl
  | succ k ih =>
    unfold initRegionFrom
    split
    · exact ih
    · exact ih

@[simp] theorem markUsed_maxBlocks {k i : Nat} : (markUsed k i f).maxBlocks = f.maxBlocks := by
  induction k generalizing i f with
  | zero => rfl
  | succ k ih =>
    rw [markUsed, ih]
    split
    · rfl
    · rfl

theorem markUsed_free (k i : Nat) : (markUsed k i f).memoryMap.bit n = false ↔
    f.memoryMap.bit n = false ∧ ¬ (i ≤ n ∧ n < i + k) := by
  induction k generalizing i f with
  | zero =>
    refine (and_iff_left ?_).symm
    omega
  | succ k ih =>
    rw [markUsed, ih]
    split
    · rename_i ht
      rw [mmapTest_iff] at ht
      refine and_congr_right fun hf => ?_
      have hne : n ≠ i := by
        rintro rfl
        rw [ht] at hf
        cases hf
      omega
    · dsimp only [mmapSet]
      rw [bit_set, Bool.or_eq_false_iff, decide_eq_false_iff_not]
      constructor
      · rintro ⟨⟨hne, hf⟩, h⟩
        exact ⟨hf, by omega⟩
      · rintro ⟨hf, h⟩
        exact ⟨⟨by omega, hf⟩, by omega⟩

end

section
variable {kernelEnd : Nat} {memoryMap : List MemoryRegion} {memory : Words} {n : Nat}

/-- The bitmap as the entries leave it. -/
theorem regions_maxBlocks (memoryMap : List MemoryRegion) (f : Frames) : (memoryMap.foldl
      (fun f r => if r.type = 1 then memInitRegion r.start r.size f else f) f).maxBlocks =
        f.maxBlocks := by
  refine List.foldlRecOn (motive := fun f' : Frames => f'.maxBlocks = f.maxBlocks) memoryMap _ rfl
    fun f' hf r _ => ?_
  split
  · exact initRegionFrom_maxBlocks.trans hf
  · exact hf

/-- `memman_init` marks blocks by hand in the bitmap that the entries leave. -/
theorem memmanInit_eq {f : Frames} (h : memoryMap.foldl
      (fun f r => if r.type = 1 then memInitRegion r.start r.size f else f)
        (fillMap (limit memoryMap / memBlockSize) memory) = f) :
    memmanInit kernelEnd memoryMap memory =
      markUsed (blocksUsedByKernel kernelEnd (markUsed 256 0 f).maxBlocks) 0x200
        (markUsed 256 0 f) := by
  subst h
  rfl

/-- **The free blocks after `memman_init`** are those that the entries open, except those marked by
hand. -/
theorem free_iff (hn : n / 64 ≤ limit memoryMap / memBlockSize / 64) :
    (memmanInit kernelEnd memoryMap memory).memoryMap.bit n = false ↔
      Opened memoryMap n ∧ ¬ KernelBlock kernelEnd (limit memoryMap / memBlockSize) n := by
  have hfill : ∀ m ≤ n,
      (fillMap (limit memoryMap / memBlockSize) memory).memoryMap.bit m = false ↔ False := by
    intro m hm
    have : m / 64 ≤ limit memoryMap / memBlockSize / memMapWordSize :=
      Nat.le_trans (Nat.div_le_div_right hm) hn
    unfold fillMap bit
    dsimp only
    rw [if_pos this, BitVec.getLsbD_allOnes, decide_eq_true (Nat.mod_lt _ (by decide))]
    decide
  have hopened := (regions_free memoryMap (fillMap (limit memoryMap / memBlockSize) memory)).trans
    (freeAfter_congr hfill)
  have hmax := regions_maxBlocks memoryMap (fillMap (limit memoryMap / memBlockSize) memory)
  rw [memmanInit_eq rfl]
  generalize memoryMap.foldl (fun f r => if r.type = 1 then memInitRegion r.start r.size f else f)
    (fillMap (limit memoryMap / memBlockSize) memory) = f at hopened hmax ⊢
  rw [markUsed_maxBlocks, hmax, markUsed_free, markUsed_free, hopened, and_assoc]
  refine and_congr Iff.rfl ?_
  unfold KernelBlock fillMap
  dsimp only
  omega

/-- **Initialisation frees only usable memory** exactly when the part of a first block in front of
its entry is available memory too, and no entry starts at, or goes on to, a block that has a byte of
another type. -/
theorem init_frees_usable_iff :
    (∀ n, n / 64 ≤ limit memoryMap / memBlockSize / 64 →
        (memmanInit kernelEnd memoryMap memory).memoryMap.bit n = false →
        ∀ b, ByteOf n b → Available memoryMap b ∧ ¬ Unusable memoryMap b) ↔
      (∀ r ∈ memoryMap, r.type = 1 → memBlockSize ≤ r.size →
        Ordinary kernelEnd memoryMap r.firstBlock →
        ∀ b, ByteOf r.firstBlock b → b < r.start → Available memoryMap b) ∧
      ∀ n, Ordinary kernelEnd memoryMap n → (∃ b, ByteOf n b ∧ Unusable memoryMap b) →
        (∀ i, starts memoryMap i n = false) ∧
        ∀ k i, n = k + 1 → inForce memoryMap k = some i → counts memoryMap i n = false := by
  -- a block that an entry has is all inside it, but for a part of the first block
  have hinside : ∀ r : MemoryRegion, ∀ n b, r.HasBlock n → ByteOf n b →
      r.HasByte b ∨ n = r.firstBlock ∧ b < r.start := by
    intro r n b h1 h2
    unfold MemoryRegion.HasBlock MemoryRegion.firstBlock at h1
    unfold MemoryRegion.HasByte MemoryRegion.firstBlock
    unfold ByteOf at h2
    dsimp only [memBlockSize] at *
    omega
  simp only [← not_opened_iff]
  constructor
  · intro h
    refine ⟨fun r hr ht hsize hord b hb hlt => ?_, fun n hord ⟨b, hb, hun⟩ hopen => ?_⟩
    · apply Classical.byContradiction
      intro hno
      have hopened : Opened memoryMap r.firstBlock := by
        refine opened_of_first ⟨r, hr, ht, Nat.le_refl _, ?_⟩ fun r' hr' ht' hblock => ?_
        · have : 0 < r.size / memBlockSize := Nat.div_pos hsize (by decide)
          omega
        · rcases hinside r' _ b hblock hb with hbyte | ⟨he, -⟩
          · exact absurd ⟨r', hr', ht', hbyte⟩ hno
          · exact he.symm
      exact hno (h _ hord.1 ((free_iff hord.1).2 ⟨hopened, hord.2⟩) b hb).1
    · exact (h n hord.1 ((free_iff hord.1).2 ⟨hopen, hord.2⟩) b hb).2 hun
  · rintro ⟨hfirst, hother⟩ n hn hfree b hb
    obtain ⟨hopen, hker⟩ := (free_iff hn).1 hfree
    refine ⟨?_, fun hun => hother n ⟨hn, hker⟩ ⟨b, hb, hun⟩ hopen⟩
    obtain ⟨before, r, after, rfl, ht, hblock, -⟩ := opened_iff.1 hopen
    have hr : r ∈ before ++ r :: after := by simp
    rcases hinside r n b hblock hb with hbyte | ⟨rfl, hlt⟩
    · exact ⟨r, hr, ht, hbyte⟩
    · have hsize : memBlockSize ≤ r.size := by
        have := hblock.2
        exact Nat.le_of_not_lt fun hlt => by rw [Nat.div_eq_of_lt hlt] at this; omega
      exact hfirst r hr ht hsize ⟨hn, hker⟩ b hb hlt

/-- A whole block of an available entry does not lie below all first blocks. -/
theorem starts_of_holds {r : MemoryRegion} (hr : r ∈ memoryMap) (ht : r.type = 1) (hn : r.Holds n) :
    ∃ s j, s ≤ n ∧ starts memoryMap j s = true := by
  obtain ⟨j, hj⟩ := List.mem_iff_getElem?.1 hr
  obtain ⟨h1, h2⟩ := hn
  refine ⟨r.firstBlock, j, ?_, starts_iff.2 ⟨r, hj, ⟨ht, Nat.le_refl _, ?_⟩, rfl⟩⟩
  · unfold MemoryRegion.firstBlock
    dsimp only [memBlockSize] at *
    omega
  · dsimp only [memBlockSize] at *
    omega

/-- **Initialisation frees all usable memory** exactly when, wherever the entry in force ends, every whole
block of an available entry from there up to the next start of an entry is marked by hand. -/
theorem init_frees_all_iff :
    (∀ n, n < limit memoryMap / memBlockSize → (∃ r ∈ memoryMap, r.type = 1 ∧ r.Holds n) →
        ¬ KernelBlock kernelEnd (limit memoryMap / memBlockSize) n →
        (memmanInit kernelEnd memoryMap memory).memoryMap.bit n = false) ↔
      ∀ last i, inForce memoryMap last = some i → counts memoryMap i (last + 1) = false →
        ∀ n, last < n → (∀ k, last < k → k ≤ n → ∀ j, starts memoryMap j k = false) →
          n < limit memoryMap / memBlockSize → (∃ r ∈ memoryMap, r.type = 1 ∧ r.Holds n) →
          KernelBlock kernelEnd (limit memoryMap / memBlockSize) n := by
  constructor
  · intro h last i hi hc n hlast hs hn hr
    apply Classical.byContradiction
    intro hker
    have hopen := ((free_iff (Nat.div_le_div_right (Nat.le_of_lt hn))).1 (h n hn hr hker)).1
    obtain ⟨j, hj⟩ := opened_iff_inForce.1 hopen
    obtain ⟨hsame, hgoes⟩ := inForce_back (Nat.le_of_lt hlast) hj hs
    obtain rfl : i = j := Option.some.inj (hi.symm.trans hsame)
    rw [hgoes hlast] at hc
    cases hc
  · intro h n hn hr hker
    refine (free_iff (Nat.div_le_div_right (Nat.le_of_lt hn))).2 ⟨opened_iff_inForce.2 ?_, hker⟩
    obtain ⟨r, hmem, ht, hholds⟩ := id hr
    obtain ⟨s, j, hle, hstart⟩ := starts_of_holds hmem ht hholds
    rcases inForce_or_ends hle hstart with hi | ⟨last, i, hlt, hi, hc, hs⟩
    · exact hi
    · exact absurd (h last i hi hc n hlt hs hn hr) hker

end

/-! ## Two memory maps -/

set_option maxRecDepth 40000 in
/-- An entry that starts inside a block: the bytes of the block in front of it are freed with it. -/
theorem unaligned_start_freed :
    ∃ memoryMap : List MemoryRegion, (∀ r ∈ memoryMap, r.start + r.size < 2 ^ 64) ∧
      Boot 0xC0001000 memoryMap ∧
      (memmanInit 0xC0001000 memoryMap fun _ => 0).memoryMap.bit 0x300 = false ∧
      ByteOf 0x300 0x300000 ∧ ¬ Available memoryMap 0x300000 := by
  refine ⟨[⟨0x300800, 0x4000, 1⟩], by simp, ⟨by simp, by decide, by decide, by decide⟩,
    by decide, ⟨by decide, by decide⟩, ?_⟩
  simp [Available, MemoryRegion.HasByte]

set_option maxRecDepth 40000 in
/-- Two entries with the same start: the second, larger one is stuck at its first block, and the
rest of it is lost. -/
theorem overlap_lost :
    ∃ memoryMap : List MemoryRegion, (∀ r ∈ memoryMap, r.start + r.size < 2 ^ 64) ∧
      Boot 0xC0001000 memoryMap ∧ (∃ r ∈ memoryMap, r.type = 1 ∧ r.Holds 0x304) ∧
      0x304 < limit memoryMap / memBlockSize ∧
      ¬ KernelBlock 0xC0001000 (limit memoryMap / memBlockSize) 0x304 ∧
      (memmanInit 0xC0001000 memoryMap fun _ => 0).memoryMap.bit 0x304 = true := by
  refine ⟨[⟨0x300000, 0x4000, 1⟩, ⟨0x300000, 0x8000, 1⟩], by simp,
    ⟨by simp, by decide, by decide, by decide⟩, ⟨_, List.mem_cons_of_mem _
      List.mem_cons_self, rfl, by decide, by decide⟩, by decide, ?_, by decide⟩
  unfold KernelBlock
  decide

end Memman
