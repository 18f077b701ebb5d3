import Mathlib

/-!
# Linked lists in memory

`Chain next h l`: starting at `h` and following `next`, the addresses of `l` come in order and then
the null pointer 0. A write to a record outside the list leaves it alone (`Chain.congr`), appending
writes the `next` of the last record only (`Chain.snoc`). `upd` is the update of a function at one
argument, in which such writes are expressed.
-/

namespace Lib

section
variable {α β : Type} [DecidableEq α]

/-- `f` with the value `v` at `a`. -/
def upd (f : α → β) (a : α) (v : β) : α → β := fun x => if x = a then v else f x

@[simp] theorem upd_same (f : α → β) (a : α) (v : β) : upd f a v a = v := if_pos rfl

@[simp] theorem upd_self (f : α → β) (a : α) : upd f a (f a) = f := by
  funext x
  unfold upd
  split
  · rename_i hx
    rw [hx]
  · rfl

@[simp] theorem upd_upd (f : α → β) (a : α) (v w : β) : upd (upd f a v) a w = upd f a w := by
  funext x
  unfold upd
  split <;> rfl

theorem upd_ne (f : α → β) {a x : α} (v : β) (h : x ≠ a) : upd f a v x = f x := if_neg h

end

/-- The null-terminated list from `h` on. -/
def Chain (next : Nat → Nat) : (h : Nat) → List Nat → Prop
  | h, [] => h = 0
  | h, a :: l => h = a ∧ a ≠ 0 ∧ Chain next (next a) l

section
variable {next next' : Nat → Nat} {h a t : Nat} {l : List Nat}

@[simp] theorem chain_nil : Chain next h [] ↔ h = 0 := Iff.rfl

@[simp] theorem chain_cons : Chain next h (a :: l) ↔ h = a ∧ a ≠ 0 ∧ Chain next (next a) l := Iff.rfl

/-- Only the empty list starts at the null pointer. -/
theorem Chain.head_eq_zero (hc : Chain next h l) : h = 0 ↔ l = [] := by
  cases l with
  | nil => simpa using hc
  | cons a l =>
    obtain ⟨rfl, ha, -⟩ := hc
    simpa using ha

theorem Chain.ne_zero (hc : Chain next h l) (ha : a ∈ l) : a ≠ 0 := by
  induction l generalizing h with
  | nil => cases ha
  | cons b l ih =>
    obtain ⟨-, hb, hc⟩ := hc
    rcases List.mem_cons.1 ha with rfl | ha
    · exact hb
    · exact ih hc ha

/-- The rest of the list behind one of its records. -/
theorem Chain.after {m : List Nat} (hc : Chain next h (m ++ a :: l)) : Chain next (next a) l := by
  induction m generalizing h with
  | nil => exact hc.2.2
  | cons b m ih => exact ih hc.2.2

theorem Chain.congr (hc : Chain next h l) (hn : ∀ x ∈ l, next' x = next x) : Chain next' h l := by
  induction l generalizing h with
  | nil => exact hc
  | cons a l ih =>
    obtain ⟨h1, h2, h3⟩ := hc
    refine ⟨h1, h2, ?_⟩
    rw [hn a List.mem_cons_self]
    exact ih h3 fun x hx => hn x (List.mem_cons_of_mem _ hx)

/-- **A record appended** behind the last one, `t`. -/
theorem Chain.snoc (hc : Chain next h (l ++ [t])) (ha : a ≠ 0) (hl : ∀ x ∈ l, next' x = next x)
    (ht : next' t = a) (hz : next' a = 0) : Chain next' h (l ++ [t, a]) := by
  induction l generalizing h with
  | nil =>
    obtain ⟨h1, h2, -⟩ := hc
    exact ⟨h1, h2, ht, ha, hz⟩
  | cons b l ih =>
    obtain ⟨h1, h2, h3⟩ := hc
    refine ⟨h1, h2, ?_⟩
    rw [hl b List.mem_cons_self]
    exact ih h3 fun x hx => hl x (List.mem_cons_of_mem _ hx)

end

end Lib
