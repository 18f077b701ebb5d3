import Mathlib.Data.Nat.Digits.Lemmas

/-!
# Numerals

`readDigits digit b s` reads a list of characters as a number to the base `b`, most significant digit
first; `digit` knows the characters. A numeral (`IsNumeral`) has at least one digit and no zero in front
of others. The digits that Mathlib's `Nat.digits` lists, in the other order, are one (`isNumeral_digits`).
-/

namespace Lib

section
variable {α : Type} {digit : α → Option Nat} {char : Nat → α} {b n : Nat} {s : List α}

/-- The number that the digits stand for. -/
def readDigits (digit : α → Option Nat) (b : Nat) (s : List α) : Option Nat :=
  s.foldl (fun n c => n.bind fun n => (digit c).map (b * n + ·)) (some 0)

/-- The characters are a numeral of `n` without leading zeros. -/
structure IsNumeral (digit : α → Option Nat) (b n : Nat) (s : List α) : Prop where
  value : readDigits digit b s = some n
  nonempty : s ≠ []
  lead : s.head?.bind digit = some 0 → s.length = 1

theorem readDigits_map {ds : List Nat} (h : ∀ d ∈ ds, digit (char d) = some d) :
    readDigits digit b (ds.map char).reverse = some (Nat.ofDigits b ds) := by
  induction ds with
  | nil => rfl
  | cons d ds ih =>
    have hrest := ih fun x hx => h x (by simp [hx])
    unfold readDigits at hrest ⊢
    rw [List.map_cons, List.reverse_cons, List.foldl_append, hrest]
    simp [h d (by simp), Nat.ofDigits_cons, Nat.add_comm]

/-- **The digits of a number** are a numeral of it. -/
theorem isNumeral_digits (hb : 1 < b) (hn : n ≠ 0) (h : ∀ d < b, digit (char d) = some d) :
    IsNumeral digit b n ((Nat.digits b n).map char).reverse where
  value := by
    rw [readDigits_map fun d hd => h d (Nat.digits_lt_base hb hd), Nat.ofDigits_digits]
  nonempty := by simpa using Nat.digits_ne_nil_iff_ne_zero.2 hn
  lead h0 := by
    have hne : Nat.digits b n ≠ [] := Nat.digits_ne_nil_iff_ne_zero.2 hn
    have hlast := Nat.getLast_digit_ne_zero b hn
    rw [List.head?_reverse, List.getLast?_map, List.getLast?_eq_some_getLast hne] at h0
    have hlt := Nat.digits_lt_base hb (List.getLast_mem hne)
    rw [Option.map_some, Option.bind_some, h _ hlt] at h0
    exact absurd (Option.some.inj h0) hlast

/-- The character of zero is a numeral. -/
theorem isNumeral_zero {c : α} (h : digit c = some 0) : IsNumeral digit b 0 [c] where
  value := by simp [readDigits, h]
  nonempty := by simp
  lead _ := rfl

end

end Lib
