import Mathlib

/-!
# Bitmaps of 64-bit words

`bit w n` is bit `n % 64` of word `n / 64`. `set`, `unset` and `test` are the C expressions on the
words; `bit_set`, `bit_unset` and `test_iff` say what they do to the bits, which is all that later
proofs use. `count p n` is the number of values below `n` that satisfy `p`; changing the predicate
at one value changes it by one (`count_insert`, `count_erase`).
-/

namespace Lib

/-- The words of a bitmap. -/
abbrev Words := Nat → BitVec 64

namespace Words

/-- Bit `n` of the bitmap. -/
def bit (w : Words) (n : Nat) : Bool := (w (n / 64)).getLsbD (n % 64)

/-- `(uint64_t) 1 << k`. -/
def mask (k : Nat) : BitVec 64 := 1#64 <<< k

/-- `w[n / 64] |= 1 << (n % 64)`. -/
def set (w : Words) (n : Nat) : Words :=
  fun i => if i = n / 64 then w i ||| mask (n % 64) else w i

/-- `w[n / 64] &= ~(1 << (n % 64))`. -/
def unset (w : Words) (n : Nat) : Words :=
  fun i => if i = n / 64 then w i &&& ~~~ mask (n % 64) else w i

/-- `w[n / 64] & (1 << (n % 64))`. -/
def test (w : Words) (n : Nat) : BitVec 64 := w (n / 64) &&& mask (n % 64)

theorem getLsbD_mask {k : Nat} (hk : k < 64) (j : Nat) : (mask k).getLsbD j = decide (j = k) := by
  unfold mask
  rw [← BitVec.twoPow_eq, BitVec.getLsbD_twoPow]
  by_cases h : j = k
  · simp [h, hk]
  · simp [h, Ne.symm h]

/-- The test of one bit of a word. -/
theorem and_mask_eq_zero {x : BitVec 64} {k : Nat} (hk : k < 64) :
    x &&& mask k = 0#64 ↔ x.getLsbD k = false := by
  constructor
  · intro h
    have := congrArg (fun y => BitVec.getLsbD y k) h
    simpa [getLsbD_mask hk] using this
  · intro h
    apply BitVec.eq_of_getLsbD_eq
    intro j hj
    rw [BitVec.getLsbD_and, getLsbD_mask hk]
    by_cases hjk : j = k
    · simp [hjk, h]
    · simp [hjk]

theorem test_iff (w : Words) (n : Nat) : test w n ≠ 0#64 ↔ bit w n = true := by
  unfold test bit
  rw [Ne, and_mask_eq_zero (Nat.mod_lt _ (by decide))]
  simp

theorem bit_set (w : Words) (n k : Nat) : bit (set w n) k = (decide (k = n) || bit w k) := by
  unfold bit set
  by_cases h : k / 64 = n / 64
  · rw [if_pos h, BitVec.getLsbD_or, getLsbD_mask (Nat.mod_lt _ (by decide)), Bool.or_comm]
    congr 1
    simp only [decide_eq_decide]
    omega
  · have hkn : k ≠ n := fun he => h (by rw [he])
    rw [if_neg h]
    simp [hkn]

theorem bit_unset (w : Words) (n k : Nat) : bit (unset w n) k = (!decide (k = n) && bit w k) := by
  unfold bit unset
  by_cases h : k / 64 = n / 64
  · rw [if_pos h, BitVec.getLsbD_and, BitVec.getLsbD_not,
      getLsbD_mask (Nat.mod_lt _ (by decide)), Bool.and_comm]
    have hk : k % 64 < 64 := Nat.mod_lt _ (by decide)
    have he : decide (k % 64 = n % 64) = decide (k = n) := by
      simp only [decide_eq_decide]
      omega
    simp [hk, he]
  · have hkn : k ≠ n := fun he => h (by rw [he])
    rw [if_neg h]
    simp [hkn]

/-- A word that is not all ones has a bit clear. -/
theorem exists_clear {x : BitVec 64} (h : x ≠ BitVec.allOnes 64) :
    ∃ j < 64, x.getLsbD j = false := by
  refine Classical.byContradiction fun hn => h ?_
  apply BitVec.eq_of_getLsbD_eq
  intro j hj
  rw [BitVec.getLsbD_allOnes]
  cases hx : x.getLsbD j with
  | true => simp [hj]
  | false => exact absurd ⟨j, hj, hx⟩ hn

end Words

/-! ## Counting -/

/-- The number of values below `n` that satisfy `p`. -/
def count (p : Nat → Bool) : Nat → Nat
  | 0 => 0
  | n + 1 => count p n + if p n then 1 else 0

section
variable {p q : Nat → Bool} {n k : Nat}

theorem count_congr (h : ∀ i < n, p i = q i) : count p n = count q n := by
  induction n with
  | zero => rfl
  | succ n ih =>
    rw [count, count, ih (fun i hi => h i (by omega)), h n (by omega)]

theorem count_le (p : Nat → Bool) (n : Nat) : count p n ≤ n := by
  induction n with
  | zero => exact Nat.le_refl _
  | succ n ih =>
    unfold count
    split <;> omega

theorem count_all (h : ∀ i < n, p i = true) : count p n = n := by
  induction n with
  | zero => rfl
  | succ n ih =>
    rw [count, ih (fun i hi => h i (by omega)), h n (by omega)]
    rfl

/-- One more value satisfies the predicate. -/
theorem count_insert (hk : k < n) (hp : p k = false) (hq : ∀ i, q i = (decide (i = k) || p i)) :
    count q n = count p n + 1 := by
  induction n with
  | zero => omega
  | succ n ih =>
    rw [count, count]
    by_cases h : k = n
    · subst h
      rw [count_congr (p := q) (q := p) (fun i hi => by rw [hq i, decide_eq_false (by omega)]; rfl),
        hq k, hp]
      simp
    · rw [ih (by omega), hq n, decide_eq_false (Ne.symm h), Bool.false_or]
      omega

/-- One value less satisfies the predicate. -/
theorem count_erase (hk : k < n) (hp : p k = true) (hq : ∀ i, q i = (!decide (i = k) && p i)) :
    count q n + 1 = count p n := by
  refine (count_insert (p := q) (q := p) hk (by rw [hq k]; simp) fun i => ?_).symm
  rw [hq i]
  by_cases h : i = k
  · simp [h, hp]
  · simp [h]

/-- A value that does not satisfy the predicate leaves room. -/
theorem count_lt (hk : k < n) (hp : p k = false) : count p n < n := by
  have h := count_insert (q := fun i => decide (i = k) || p i) hk hp (fun _ => rfl)
  have := count_le (fun i => decide (i = k) || p i) n
  omega

end

end Lib
