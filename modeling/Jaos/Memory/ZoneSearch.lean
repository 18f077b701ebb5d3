import Jaos.Memory.Proof.Frames

/-!
# The search for a zone reads only the bitmap

`zoneReads` is `mmap_first_free_zone` for two blocks or more, with the words it reads in their order
(`zoneReads_eq`). The inner loop has no bound of its own, and moves the outer one past its bound into
the last word; the guard bits keep it there (`Guarded.innerReads_le`). `zone_first_fit`: the search
ends, reads no word past the last one of the bitmap, and returns the first zone.
-/

namespace Memman

open Lib Words

/-- `zoneOuter` with the words that are read. -/
def outerReads (f : Frames) (inner : (i j : Nat) → Option (Nat × List Nat)) (i : Nat) :
    Option (Nat × List Nat) :=
  if i < f.maxBlocks / 64 then
    (if f.memoryMap i ≠ BitVec.allOnes 64 then inner i 0 else inner i 64).map fun (r, l) => (r, i :: l)
  else some (0, [])

/-- `zoneInner` with the words that are read: that of the bit itself, and those of the bits that are
counted. -/
def innerReads (f : Frames) (size : Nat) : (fuel i j : Nat) → Option (Nat × List Nat)
  | 0, _, _ => none
  | fuel + 1, i, j =>
    if j < 64 then
      if clearAt i j f then
        let count := scan (fun c => !decide (mmapTest (i * 64 + j + c) f)) size 0
        let reads := i :: (List.range (min (count + 1) size)).map fun c => (i * 64 + j + c) / 64
        if count = size then some (i * 64 + j, reads)
        else
          let stop := i * 64 + j + count
          (innerReads f size fuel (stop / 64) (stop % 64 + 1)).map fun (r, l) => (r, reads ++ l)
      else (innerReads f size fuel i (j + 1)).map fun (r, l) => (r, i :: l)
    else outerReads f (innerReads f size fuel) (i + 1)

/-- `mmap_first_free_zone` for two blocks or more, with the words that are read. -/
def zoneReads (size : Nat) (f : Frames) : Option (Nat × List Nat) :=
  outerReads f (innerReads f size (zoneFuel f)) 0

section
variable {f : Frames} {size : Nat}

/-! ## It is the search -/

theorem outerReads_eq {inner : Nat → Nat → Option Nat}
    {innerR : Nat → Nat → Option (Nat × List Nat)} {i : Nat}
    (h : ∀ i j, (innerR i j).map Prod.fst = inner i j) :
    (outerReads f innerR i).map Prod.fst = zoneOuter f inner i := by
  unfold outerReads zoneOuter
  split
  · rw [Option.map_map]
    split
    · exact h i 0
    · exact h i 64
  · rfl

theorem innerReads_eq (fuel i j : Nat) :
    (innerReads f size fuel i j).map Prod.fst = zoneInner f size fuel i j := by
  induction fuel generalizing i j with
  | zero => rfl
  | succ fuel ih =>
    unfold innerReads zoneInner
    dsimp only
    split
    · split
      · split
        · rfl
        · rw [Option.map_map]
          exact ih _ _
      · rw [Option.map_map]
        exact ih _ _
    · exact outerReads_eq ih

/-- The search with its reads is the search. -/
theorem zoneReads_eq (hs : 2 ≤ size) (f : Frames) :
    (zoneReads size f).map Prod.fst = mmapFirstFreeZone size f := by
  unfold zoneReads mmapFirstFreeZone
  rw [if_neg (by omega), if_neg (by omega)]
  exact outerReads_eq (innerReads_eq _)

/-! ## The reads -/

theorem outerReads_le {inner : Nat → Nat → Option (Nat × List Nat)} {i r : Nat} {l : List Nat}
    (hin : ∀ i j r l, i ≤ f.maxBlocks / 64 → inner i j = some (r, l) →
      ∀ w ∈ l, w ≤ f.maxBlocks / 64)
    (h : outerReads f inner i = some (r, l)) : ∀ w ∈ l, w ≤ f.maxBlocks / 64 := by
  unfold outerReads at h
  split at h
  · rename_i hi
    obtain ⟨⟨r', l'⟩, h', he⟩ := Option.map_eq_some_iff.1 h
    obtain ⟨rfl, rfl⟩ := Prod.mk.inj he
    refine List.forall_mem_cons.2 ⟨Nat.le_of_lt hi, ?_⟩
    split at h'
    · exact hin i 0 r' l' (Nat.le_of_lt hi) h'
    · exact hin i 64 r' l' (Nat.le_of_lt hi) h'
  · cases h
    nofun

/-- The guard bits keep the inner loop in the bitmap. -/
theorem Guarded.innerReads_le (h : Guarded f) {fuel i j r : Nat} {l : List Nat}
    (hi : i ≤ f.maxBlocks / 64) (hr : innerReads f size fuel i j = some (r, l)) :
    ∀ w ∈ l, w ≤ f.maxBlocks / 64 := by
  induction fuel generalizing i j r l with
  | zero => cases hr
  | succ fuel ih =>
    unfold innerReads at hr
    dsimp only at hr
    split at hr
    · rename_i hj
      split at hr
      · rename_i hc
        have hend := (h.zone_scan size hi hj hc).2
        -- counting stops at the first guard bit or before
        have hreads : ∀ w ∈ i :: (List.range (min (scan (fun c =>
            !decide (mmapTest (i * 64 + j + c) f)) size 0 + 1) size)).map fun c =>
              (i * 64 + j + c) / 64, w ≤ f.maxBlocks / 64 := by
          refine List.forall_mem_cons.2 ⟨hi, fun w hw => ?_⟩
          obtain ⟨c, hc, rfl⟩ := List.mem_map.1 hw
          have := List.mem_range.1 hc
          apply Nat.div_le_div_right
          omega
        split at hr
        · obtain ⟨-, rfl⟩ := Prod.mk.inj (Option.some.inj hr)
          exact hreads
        · obtain ⟨⟨r', l'⟩, h', he⟩ := Option.map_eq_some_iff.1 hr
          obtain ⟨rfl, rfl⟩ := Prod.mk.inj he
          intro w hw
          rcases List.mem_append.1 hw with hw | hw
          · exact hreads w hw
          · exact ih (by omega) h' w hw
      · obtain ⟨⟨r', l'⟩, h', he⟩ := Option.map_eq_some_iff.1 hr
        obtain ⟨rfl, rfl⟩ := Prod.mk.inj he
        exact List.forall_mem_cons.2 ⟨hi, ih hi h'⟩
    · exact outerReads_le (fun i j r l hi hr => ih hi hr) hr

/-- **The search for a zone is sound, first-fit, and ends**; it reads no word past the one of the
first block that does not exist. -/
theorem zone_first_fit
    (guard : ∀ n, f.maxBlocks ≤ n → n < (f.maxBlocks / 64 + 1) * 64 → f.memoryMap.bit n = true)
    (hs : 2 ≤ size) :
    ∃ r reads, zoneReads size f = some (r, reads) ∧ mmapFirstFreeZone size f = some r ∧
      (∀ w ∈ reads, w ≤ f.maxBlocks / 64) ∧
      (r ≠ 0 → (∀ k, r ≤ k → k < r + size → f.memoryMap.bit k = false) ∧
        r + size ≤ f.maxBlocks ∧
        ∀ r' < r, ¬ ∀ k, r' ≤ k → k < r' + size → f.memoryMap.bit k = false) := by
  have hg : Guarded f := guard
  obtain ⟨r, hr⟩ := hg.zone_total size
  obtain ⟨⟨r', l⟩, hl, he⟩ := Option.map_eq_some_iff.1 ((zoneReads_eq hs f).trans hr)
  obtain rfl : r' = r := he
  refine ⟨r', l, hl, hr, outerReads_le (fun i j r l hi h => hg.innerReads_le hi h) hl, fun hne => ?_⟩
  rcases hg.zone_first hs hr with hfound | ⟨hz, -⟩
  · exact ⟨hfound.zone.2, hfound.zone.1, hfound.first⟩
  · exact absurd hz hne

end

/-- A bitmap of 70 blocks with one free block, and three further on. -/
def holeMap : Frames where
  usedBlocks := 66
  maxBlocks := 70
  memoryMap := fun i => if i = 0 then ~~~0xE2#64 else BitVec.allOnes 64

/-- Its first zone of two blocks. -/
theorem zone_first_fit_holeMap :
    ∃ r reads, zoneReads 2 holeMap = some (r, reads) ∧ mmapFirstFreeZone 2 holeMap = some r ∧
      (∀ w ∈ reads, w ≤ 1) ∧
      (r ≠ 0 → (∀ k, r ≤ k → k < r + 2 → holeMap.memoryMap.bit k = false) ∧ r + 2 ≤ 70 ∧
        ∀ r' < r, ¬ ∀ k, r' ≤ k → k < r' + 2 → holeMap.memoryMap.bit k = false) := by
  have guard : ∀ n < 128, 70 ≤ n → holeMap.memoryMap.bit n = true := by decide
  exact zone_first_fit (fun n h1 h2 => guard n h2 h1) (by decide)

example : mmapFirstFreeZone 2 holeMap = some 5 := by decide

end Memman
