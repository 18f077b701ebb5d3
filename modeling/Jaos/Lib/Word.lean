import Mathlib

/-!
# 64-bit words as natural numbers

`add64` and `sub64` are C's `uint64_t` addition and subtraction on values below `2 ^ 64`. The
lemmas remove the wrap where a bound is known, and turn the masks of page arithmetic
(`& 0xFFF`, `& 0xFFFFF000`) into remainders, so that `omega` closes what is left.
-/

namespace Lib

/-- `uint64_t` addition. -/
def add64 (a b : Nat) : Nat := (a + b) % 2 ^ 64

/-- `uint64_t` subtraction. -/
def sub64 (a b : Nat) : Nat := (a + (2 ^ 64 - b % 2 ^ 64)) % 2 ^ 64

theorem add64_of_lt {a b : Nat} (h : a + b < 2 ^ 64) : add64 a b = a + b := Nat.mod_eq_of_lt h

theorem sub64_of_le {a b : Nat} (h : b ≤ a) (ha : a < 2 ^ 64) : sub64 a b = a - b := by
  unfold sub64
  omega

theorem add64_lt (a b : Nat) : add64 a b < 2 ^ 64 := Nat.mod_lt _ (by decide)

theorem sub64_lt (a b : Nat) : sub64 a b < 2 ^ 64 := Nat.mod_lt _ (by decide)

/-- `x & 0xFFF` is the offset in the page. -/
theorem and_fff (x : Nat) : x &&& 0xFFF = x % 4096 := Nat.and_two_pow_sub_one_eq_mod x 12

/-- `x & 0xFFFFF000` drops the page offset and everything from bit 32 on. -/
theorem and_fffff000 (x : Nat) : x &&& 0xFFFFF000 = x % 2 ^ 32 - x % 4096 := by
  have h : x &&& 0xFFFFF000 = x % 2 ^ 32 / 2 ^ 12 * 2 ^ 12 := by
    apply Nat.eq_of_testBit_eq
    intro j
    rw [Nat.testBit_and, show (0xFFFFF000 : Nat) = (2 ^ 20 - 1) * 2 ^ 12 by decide,
      Nat.testBit_mul_two_pow, Nat.testBit_mul_two_pow, Nat.testBit_two_pow_sub_one,
      Nat.testBit_div_two_pow, Nat.testBit_mod_two_pow]
    by_cases hj : 12 ≤ j
    · simp only [hj, decide_true, Bool.true_and, Nat.sub_add_cancel]
      rw [Bool.and_comm]
      congr 1
      simp only [decide_eq_decide]
      omega
    · simp [hj]
  rw [h]
  omega

end Lib
