import Mathlib

/-!
# Partial registers

A register is a number below `2 ^ w`. An instruction on its low `k` bits (`ax` of `eax`, `cl` of `ecx`)
leaves the others alone: `setLow k r v` is the register `r` with `v` in its low bits. `addLow` is an
addition to the low bits, whose carry is lost. In 16-bit code the stack holds words of 16 bits;
`push16` and `pop32` put a register together from two of them.
-/

namespace Lib

/-- `v` in the low `k` bits of `r`. -/
def setLow (k r v : Nat) : Nat := r / 2 ^ k * 2 ^ k + v % 2 ^ k

/-- `v` added to the low `k` bits of `r`. -/
def addLow (k r v : Nat) : Nat := setLow k r (r + v)

def push16 (v : Nat) (stack : List Nat) : List Nat := v % 2 ^ 16 :: stack

/-- The word on top is the low half. -/
def pop32 : List Nat → Nat × List Nat
  | lo :: hi :: stack => (hi * 2 ^ 16 + lo, stack)
  | stack => (0, stack)

section
variable {k r v : Nat}

theorem setLow_of_lt (h : v < 2 ^ k) : setLow k r v = r / 2 ^ k * 2 ^ k + v := by
  rw [setLow, Nat.mod_eq_of_lt h]

/-- **The carry is lost**: the sum is right exactly if there is none. -/
theorem addLow_eq_iff : addLow k r v = r + v ↔ r % 2 ^ k + v < 2 ^ k := by
  have hpos : 0 < 2 ^ k := Nat.pow_pos (by decide)
  have hr := Nat.div_add_mod r (2 ^ k)
  have hlt := Nat.mod_lt (r + v) hpos
  have hmod : (r + v) % 2 ^ k = (r % 2 ^ k + v) % 2 ^ k := by rw [Nat.mod_add_mod]
  unfold addLow setLow
  rw [Nat.mul_comm]
  constructor
  · intro h
    omega
  · intro h
    rw [hmod, Nat.mod_eq_of_lt h]
    omega

end

end Lib
