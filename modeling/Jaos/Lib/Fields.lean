import Mathlib

/-!
# Fields of a word

`x.extractLsb' k w` is the field of `w` bits of `x` from bit `k` on. `field_eq` says that shifting and
masking a signed value gives it, `join` puts two neighbours together, `high` and `low` find a field in
one of the two halves of a word. `modifyEntry` assigns to an entry of a table, and is `none` behind its
end.
-/

namespace Lib

/-! ## Bits -/

section
variable {n k w i j : Nat} {x : BitVec n} {a : BitVec k} {b : BitVec w}

/-- `(x >> k) & mask`, assigned to `w` bits; the sign is shifted in above the field. -/
theorem field_eq (h : k + w ≤ n) :
    (x.sshiftRight k &&& BitVec.ofNat n (2 ^ w - 1)).setWidth w = x.extractLsb' k w := by
  apply BitVec.eq_of_getLsbD_eq
  intro i hi
  rw [BitVec.getLsbD_setWidth, BitVec.getLsbD_and, BitVec.getLsbD_extractLsb', BitVec.getLsbD_sshiftRight,
    BitVec.getLsbD_ofNat, Nat.testBit_two_pow_sub_one]
  simp [hi, show k + i < n by omega, show i < n by omega]

/-- `x & mask`, assigned to `w` bits. -/
theorem field_zero (h : w ≤ n) :
    (x &&& BitVec.ofNat n (2 ^ w - 1)).setWidth w = x.extractLsb' 0 w := by
  rw [← field_eq (by omega), BitVec.sshiftRight_zero]

/-- `(x >> k) & mask` in a wider field. -/
theorem field_wide {v : Nat} (h : k + w ≤ n) :
    (x.sshiftRight k &&& BitVec.ofNat n (2 ^ w - 1)).setWidth v = (x.extractLsb' k w).setWidth v := by
  apply BitVec.eq_of_getLsbD_eq
  intro i hi
  rw [BitVec.getLsbD_setWidth, BitVec.getLsbD_and, BitVec.getLsbD_setWidth, BitVec.getLsbD_extractLsb',
    BitVec.getLsbD_sshiftRight, BitVec.getLsbD_ofNat, Nat.testBit_two_pow_sub_one]
  by_cases hiw : i < w
  · simp [hi, hiw, show k + i < n by omega, show i < n by omega]
  · simp [hiw]

/-- A nibble as the low half of a byte. -/
theorem nibble_low (y : BitVec 4) : (y.setWidth 8).extractLsb' 0 4 = y := by
  rw [BitVec.extractLsb'_setWidth_of_le (by decide)]
  exact BitVec.extractLsb'_eq_self

theorem nibble_high (y : BitVec 4) : (y.setWidth 8).extractLsb' 4 4 = 0#4 := by
  apply BitVec.eq_of_getLsbD_eq
  intro i hi
  simp [hi]

/-- Two fields side by side. -/
theorem join (h : j = i + k) : x.extractLsb' j w ++ x.extractLsb' i k = x.extractLsb' i (w + k) :=
  BitVec.extractLsb'_append_extractLsb'_eq_extractLsb' h

/-- A field of the upper half. -/
theorem high (h : w ≤ i) : (a ++ b).extractLsb' i j = a.extractLsb' (i - w) j :=
  BitVec.extractLsb'_append_eq_of_le h

/-- A field of the lower half. -/
theorem low (h : i + j ≤ w) : (a ++ b).extractLsb' i j = b.extractLsb' i j :=
  BitVec.extractLsb'_append_eq_of_add_le h

/-- A byte as an `int` and back. -/
theorem byte_signExtend (x : BitVec 8) : (x.signExtend 32).setWidth 8 = x := by
  apply BitVec.eq_of_getLsbD_eq
  intro i hi
  simp [hi, BitVec.getLsbD_signExtend]
  omega

/-- `x | (y & 0xF0)` on bytes, computed with `int`. -/
theorem or_highNibble {x y : BitVec 8} (hx : x.extractLsb' 4 4 = 0#4) :
    ((x.signExtend 32 ||| (y.signExtend 32 &&& 0xF0#32)).setWidth 8).extractLsb' 0 4 =
        x.extractLsb' 0 4 ∧
      ((x.signExtend 32 ||| (y.signExtend 32 &&& 0xF0#32)).setWidth 8).extractLsb' 4 4 =
        y.extractLsb' 4 4 := by
  have h0 : ((0xF0#32).setWidth 8).extractLsb' 0 4 = 0#4 := by decide
  have h1 : ((0xF0#32).setWidth 8).extractLsb' 4 4 = BitVec.allOnes 4 := by decide
  rw [BitVec.setWidth_or, BitVec.setWidth_and, byte_signExtend, byte_signExtend, BitVec.extractLsb'_or,
    BitVec.extractLsb'_or, BitVec.extractLsb'_and, BitVec.extractLsb'_and, h0, h1, hx,
    BitVec.and_allOnes]
  simp

/-- `x & 0x07` on bytes, computed with `int`. -/
theorem and_seven {x : BitVec 8} :
    ((x.signExtend 32 &&& 0x07#32).setWidth 8).extractLsb' 0 3 = x.extractLsb' 0 3 := by
  have h1 : ((0x07#32).setWidth 8).extractLsb' 0 3 = BitVec.allOnes 3 := by decide
  rw [BitVec.setWidth_and, byte_signExtend, BitVec.extractLsb'_and, h1, BitVec.and_allOnes]

end

/-! ## Tables -/

section
variable {α : Type} {n i : Nat} {f : α → α} {t t' : Vector α n}

/-- Assignments to the entry `t[i]`. -/
def modifyEntry (i : Nat) (f : α → α) (t : Vector α n) : Option (Vector α n) :=
  if h : i < n then some (t.set i (f t[i])) else none

theorem modifyEntry_eq (h : i < n) : modifyEntry i f t = some (t.set i (f t[i])) := dif_pos h

end

end Lib
