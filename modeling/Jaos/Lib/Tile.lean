import Mathlib

/-!
# Segments that tile an interval

`Tiles a b l`: the segments of `l` follow each other without a gap from `a` to `b`. A region cut
into consecutive records (heap chunks, file extents) is such a list; an operation that splits or
merges records replaces a sublist by another one with the same two ends (`tiles_append`). Segments
at different places of a tiling do not overlap (`Tiles.apart`).
-/

namespace Lib

/-- The segment `[addr, addr + size)` with data `tag`. -/
structure Seg (α : Type) where
  addr : Nat
  size : Nat
  tag : α
  deriving DecidableEq, Repr

namespace Seg

variable {α : Type}

/-- The first address past the segment. -/
def fin (c : Seg α) : Nat := c.addr + c.size

/-- The segments do not overlap. -/
def Apart (c d : Seg α) : Prop := c.fin ≤ d.addr ∨ d.fin ≤ c.addr

end Seg

/-- The segments of `l` follow each other from `a` to `b`. -/
def Tiles {α : Type} (a b : Nat) : List (Seg α) → Prop
  | [] => a = b
  | c :: l => c.addr = a ∧ Tiles c.fin b l

instance {α : Type} : (a b : Nat) → (l : List (Seg α)) → Decidable (Tiles a b l)
  | a, b, [] => inferInstanceAs (Decidable (a = b))
  | a, b, c :: l =>
    have := instDecidableTiles c.fin b l
    inferInstanceAs (Decidable (c.addr = a ∧ Tiles c.fin b l))

section
variable {α : Type} {a b : Nat} {l r : List (Seg α)} {c d : Seg α}

@[simp] theorem tiles_nil : Tiles a b ([] : List (Seg α)) ↔ a = b := Iff.rfl

@[simp] theorem tiles_cons : Tiles a b (c :: l) ↔ c.addr = a ∧ Tiles c.fin b l := Iff.rfl

theorem tiles_append : Tiles a b (l ++ r) ↔ ∃ m, Tiles a m l ∧ Tiles m b r := by
  induction l generalizing a with
  | nil => simp
  | cons c l ih => simp only [List.cons_append, tiles_cons, ih]; grind

theorem Tiles.le (h : Tiles a b l) : a ≤ b := by
  induction l generalizing a with
  | nil => exact Nat.le_of_eq h
  | cons c l ih =>
    have := ih h.2
    have := h.1
    unfold Seg.fin at *
    omega

/-- Every segment lies between the ends. -/
theorem Tiles.bounds (h : Tiles a b l) (hc : c ∈ l) : a ≤ c.addr ∧ c.fin ≤ b := by
  obtain ⟨s, t, rfl⟩ := List.append_of_mem hc
  obtain ⟨m, h1, h2⟩ := tiles_append.1 h
  exact ⟨h2.1 ▸ h1.le, h2.2.le⟩

/-- The segments come in the order of their addresses. -/
theorem Tiles.pairwise (h : Tiles a b l) : l.Pairwise (fun c d => c.fin ≤ d.addr) := by
  induction l generalizing a with
  | nil => exact .nil
  | cons c l ih => exact .cons (fun d hd => (h.2.bounds hd).1) (ih h.2)

/-- Neighbours in the list are neighbours in the region. -/
theorem Tiles.next (h : Tiles a b (l ++ c :: d :: r)) : d.addr = c.fin := by
  obtain ⟨m, -, h2⟩ := tiles_append.1 h
  exact h2.2.1

theorem Tiles.fin_last (h : Tiles a b (l ++ [c])) : c.fin = b := by
  obtain ⟨m, -, h2⟩ := tiles_append.1 h
  exact h2.2

end

section
variable {α : Type} {a b : Nat} {l : List (Seg α)} {c d : Seg α}

/-- Two members of a tiling by nonempty segments are the same or apart. -/
theorem Tiles.apart (h : Tiles a b l) (hc : c ∈ l) (hd : d ∈ l) : c = d ∨ c.Apart d := by
  by_cases hcd : c = d
  · exact .inl hcd
  obtain ⟨s, t, rfl⟩ := List.append_of_mem hc
  have hp := List.pairwise_append.1 h.pairwise
  rcases List.mem_append.1 hd with hd | hd
  · exact .inr (.inr (hp.2.2 d hd c List.mem_cons_self))
  · rcases List.mem_cons.1 hd with rfl | hd
    · exact .inl rfl
    · exact .inr (.inl ((List.pairwise_cons.1 hp.2.1).1 d hd))

variable (hpos : ∀ c ∈ l, 0 < c.size)
include hpos

/-- A segment is known by its address. -/
theorem Tiles.eq_of_addr (h : Tiles a b l) (hc : c ∈ l) (hd : d ∈ l) (he : c.addr = d.addr) :
    c = d := by
  have h1 := hpos c hc
  have h2 := hpos d hd
  rcases h.apart hc hd with h | h | h
  · exact h
  · unfold Seg.fin at h; omega
  · unfold Seg.fin at h; omega

/-- A segment that ends where the tiling ends is the last one. -/
theorem Tiles.last_of_fin (h : Tiles a b l) (hc : c ∈ l) (he : c.fin = b) :
    ∃ s, l = s ++ [c] := by
  obtain ⟨s, t, rfl⟩ := List.append_of_mem hc
  cases t with
  | nil => exact ⟨s, rfl⟩
  | cons d t =>
    have h1 := h.next
    have h2 := hpos d (by simp)
    have h3 := (h.bounds (c := d) (by simp)).2
    unfold Seg.fin at h1 h3 he
    omega

end

end Lib
