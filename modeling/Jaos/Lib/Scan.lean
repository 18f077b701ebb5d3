import Mathlib

/-!
# Counting loops

`scan p k i` is the value of `i` after `while (k-- && p(i)) i++`: the loop of every linear search
in C. `scan_spec` says where it stops.
-/

namespace Lib

/-- `i` after `while (p i) i++`, at most `k` times round. -/
def scan (p : Nat → Bool) : (k i : Nat) → Nat
  | 0, i => i
  | k + 1, i => if p i then scan p k (i + 1) else i

theorem scan_le (p : Nat → Bool) (k i : Nat) : i ≤ scan p k i ∧ scan p k i ≤ i + k := by
  induction k generalizing i with
  | zero => simp [scan]
  | succ k ih =>
    unfold scan
    split
    · have := ih (i + 1); omega
    · omega

/-- The loop has passed every value below the one it stops at. -/
theorem scan_before (p : Nat → Bool) {k i j : Nat} (hi : i ≤ j) (hj : j < scan p k i) :
    p j = true := by
  induction k generalizing i with
  | zero => simp [scan] at hj; omega
  | succ k ih =>
    unfold scan at hj
    split at hj
    · rename_i hp
      rcases Nat.eq_or_lt_of_le hi with rfl | hlt
      · exact hp
      · exact ih hlt hj
    · omega

/-- The loop stops before its bound only where the test fails. -/
theorem scan_stop (p : Nat → Bool) {k i : Nat} (h : scan p k i < i + k) : p (scan p k i) = false := by
  induction k generalizing i with
  | zero => simp [scan] at h
  | succ k ih =>
    unfold scan at h ⊢
    split
    · rename_i hp
      rw [if_pos hp] at h
      exact ih (by omega)
    · rename_i hp
      simpa using hp

/-- A failing test below the bound stops the loop at the first such value. -/
theorem scan_eq (p : Nat → Bool) {k i j : Nat} (hi : i ≤ j) (hj : j < i + k) (hp : p j = false)
    (hlt : ∀ x, i ≤ x → x < j → p x = true) : scan p k i = j := by
  have hle := scan_le p k i
  rcases Nat.lt_trichotomy (scan p k i) j with h | h | h
  · have h1 := scan_stop p (k := k) (i := i) (by omega)
    rw [hlt _ hle.1 h] at h1
    cases h1
  · exact h
  · rw [scan_before p hi h] at hp
    cases hp

end Lib
