import Jaos.Memory.Proof.Frames

/-!
# When a frame allocation fails

The searches stop at word `maxBlocks / 64`, which holds the last blocks unless their number is a
multiple of 64; the counter counts these blocks as free. Only a search for a zone that is too small
and ends in that word goes on there (`EntersLast`). `alloc_fails_iff`: an allocation fails only when
it must, unless all the zones that would do start in blocks that are not searched.
-/

namespace Memman

open Lib Words

/-- Block `r` is one of those that a search for `n` blocks tries. -/
def Tried (f : Frames) (n r : Nat) : Prop :=
  r < 64 * (f.maxBlocks / 64) ∨ 2 ≤ n ∧ EntersLast f

/-- If `n` free blocks in a row exist, some are tried. -/
def ZonesTried (f : Frames) (n : Nat) : Prop :=
  (∃ r, ZoneOk f n r) → ∃ r, ZoneOk f n r ∧ Tried f n r

section
variable {f : Frames} {n frame : Nat}

theorem zoneOk_one {r : Nat} : ZoneOk f 1 r ↔ r < f.maxBlocks ∧ f.memoryMap.bit r = false := by
  constructor
  · rintro ⟨h1, h2⟩
    exact ⟨by omega, h2 r (Nat.le_refl r) (by omega)⟩
  · rintro ⟨h1, h2⟩
    refine ⟨by omega, fun k hk1 hk2 => ?_⟩
    obtain rfl : k = r := by omega
    exact h2

/-- The free zone is free in the count. -/
theorem Sound.zone_le_free (h : Sound f) {r : Nat} (hz : ZoneOk f n r) :
    n ≤ memFreeBlockCount f := by
  have h1 := count_setRange hz.1 hz.2
  have h2 := count_le (Memman.setRange n r f).memoryMap.bit f.maxBlocks
  rw [h.free_count, h.used]
  omega

/-- **The search for one block** fails only if no block that it tries is free. -/
theorem firstFree_zero_iff (h0 : f.memoryMap.bit 0 = true) :
    mmapFirstFree f = 0 ↔ ∀ r, ZoneOk f 1 r → ¬ Tried f 1 r := by
  unfold Tried
  rcases firstFree_first f with ⟨hbit, hlt, -⟩ | ⟨hz, hall⟩
  · have hne : mmapFirstFree f ≠ 0 := fun he => by
      rw [he, h0] at hbit
      cases hbit
    refine iff_of_false hne fun hno => hno _ (zoneOk_one.2 ⟨by omega, hbit⟩) (.inl hlt)
  · refine iff_of_true hz fun r hr ht => ?_
    have hlow := ht.resolve_right fun h => absurd h.1 (by decide)
    exact not_clearFrom (hall r hlow) (Nat.le_refl r) (Nat.lt_succ_self r) hr.2

/-- **The search for several blocks** fails only if no zone that it tries is free. -/
theorem Sound.zone_zero_iff (h : Sound f) (h0 : f.memoryMap.bit 0 = true) (hn : 1 ≤ n)
    (hr : mmapFirstFreeZone n f = some frame) :
    frame = 0 ↔ ∀ r, ZoneOk f n r → ¬ Tried f n r := by
  by_cases hone : n = 1
  · subst hone
    cases hr
    exact firstFree_zero_iff h0
  · rcases h.guarded.zone_first (show 2 ≤ n by omega) hr with hfound | ⟨rfl, hnone⟩
    · have hne : frame ≠ 0 := by
        rintro rfl
        exact not_clearFrom h0 (Nat.le_refl 0) (by omega) hfound.zone.2
      exact iff_of_false hne fun hno => hno _ hfound.zone
        (hfound.searched.imp_right fun hl => ⟨by omega, hl⟩)
    · refine iff_of_true rfl fun r hz ht => ?_
      rcases ht with hlow | ⟨-, hl⟩
      · exact hnone.words r hlow hz.2
      · have := hz.1
        exact hnone.last hl r (by omega) hz.2

/-- A failure that is due means that the zones there are have been tried. -/
theorem zonesTried_iff {failed : Prop} (hfail : failed ↔ ∀ r, ZoneOk f n r → ¬ Tried f n r) :
    (failed → ¬ ∃ r, ZoneOk f n r) ↔ ZonesTried f n := by
  constructor
  · intro h hz
    apply Classical.byContradiction
    intro hno
    exact h (hfail.2 fun r hr ht => hno ⟨r, hr, ht⟩) hz
  · rintro h hf hz
    obtain ⟨r, hr, ht⟩ := h hz
    exact hfail.1 hf r hr ht

theorem Sound.allocBlock_zero_iff (h : Sound f) (h0 : f.memoryMap.bit 0 = true) :
    (memAllocBlock f).1 = 0 ↔ ∀ r, ZoneOk f 1 r → ¬ Tried f 1 r := by
  unfold memAllocBlock
  split
  · rename_i hfree
    refine iff_of_true rfl fun r hr => ?_
    have := h.zone_le_free hr
    omega
  · dsimp only
    split
    · rename_i hz
      exact iff_of_true rfl ((firstFree_zero_iff h0).1 hz)
    · rename_i hne
      exact iff_of_false (Nat.mul_ne_zero hne (by decide))
        (mt (firstFree_zero_iff h0).2 hne)

theorem Sound.allocBlocks_zero_iff (h : Sound f) (h0 : f.memoryMap.bit 0 = true) (hn : 1 ≤ n) :
    ∃ a f', memAllocBlocks n f = some (a, f') ∧
      (a = 0 ↔ ∀ r, ZoneOk f n r → ¬ Tried f n r) := by
  unfold memAllocBlocks
  split
  · rename_i hfree
    refine ⟨0, f, rfl, iff_of_true rfl fun r hr => ?_⟩
    have := h.zone_le_free hr
    omega
  · obtain ⟨frame, hr⟩ := h.guarded.zone_total n
    have hz := h.zone_zero_iff h0 hn hr
    rw [hr, Option.map_some]
    split
    · rename_i hzero
      exact ⟨_, _, rfl, iff_of_true rfl (hz.1 hzero)⟩
    · rename_i hne
      exact ⟨_, _, rfl, iff_of_false (Nat.mul_ne_zero hne (by decide)) (mt hz.2 hne)⟩

/-- **An allocation fails only when it must** exactly when a free zone, if there is one, is among
those that are tried. -/
theorem alloc_fails_iff (h : Sound f) (h0 : f.memoryMap.bit 0 = true) (hn : 1 ≤ n) :
    (((memAllocBlock f).1 = 0 → ¬ ∃ r < f.maxBlocks, f.memoryMap.bit r = false) ↔
        ZonesTried f 1) ∧
      ∃ a f', memAllocBlocks n f = some (a, f') ∧
        ((a = 0 → ¬ ∃ r, r + n ≤ f.maxBlocks ∧
          ∀ k, r ≤ k → k < r + n → f.memoryMap.bit k = false) ↔ ZonesTried f n) := by
  constructor
  · rw [← zonesTried_iff (h.allocBlock_zero_iff h0)]
    simp only [zoneOk_one]
  · obtain ⟨a, f', hr, hz⟩ := h.allocBlocks_zero_iff h0 hn
    exact ⟨a, f', hr, zonesTried_iff hz⟩

end

/-- A bitmap of 70 blocks, the last three of them free. -/
def lastThree : Frames where
  usedBlocks := 67
  maxBlocks := 70
  memoryMap := fun i => if i = 1 then ~~~0x38#64 else BitVec.allOnes 64

theorem sound_lastThree : Sound lastThree where
  used := by decide
  guard := by
    have guard : ∀ n < 128, 70 ≤ n → lastThree.memoryMap.bit n = true := by decide
    exact fun n h1 h2 => guard n h2 h1
  small := by decide

/-- The three blocks are not tried. -/
theorem alloc_fails_lastThree :
    (((memAllocBlock lastThree).1 = 0 → ¬ ∃ r < 70, lastThree.memoryMap.bit r = false) ↔
        ZonesTried lastThree 1) ∧
      ∃ a f', memAllocBlocks 2 lastThree = some (a, f') ∧
        ((a = 0 → ¬ ∃ r, r + 2 ≤ 70 ∧
          ∀ k, r ≤ k → k < r + 2 → lastThree.memoryMap.bit k = false) ↔ ZonesTried lastThree 2) :=
  alloc_fails_iff sound_lastThree (by decide) (by decide)

/-- **The last blocks are not found**: with three blocks free, no block and no two blocks can be
had. -/
theorem last_blocks_lost :
    ∃ f, Sound f ∧ f.memoryMap.bit 0 = true ∧ f.maxBlocks = 70 ∧
      (∀ k, 67 ≤ k → k < 70 → f.memoryMap.bit k = false) ∧ (memAllocBlock f).1 = 0 ∧
      (memAllocBlocks 2 f).map Prod.fst = some 0 := by
  refine ⟨lastThree, sound_lastThree, by decide, rfl, fun k h1 h2 => ?_, by decide,
    by decide⟩
  have hclear : ∀ k < 70, 67 ≤ k → lastThree.memoryMap.bit k = false := by decide
  exact hclear k h2 h1

end Memman
