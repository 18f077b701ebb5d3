import Mathlib

/-!
# Walks in a labelled graph

`E v i` is the vertex that edge `i` of `v` leads to, if there is one, and `walk E v is` follows the
labels `is` from `v`. A walk depends only on the edges it looks at (`Reads`, `walk_congr`), it
survives new edges (`walk_mono`), and a loop at its start may be taken any number of times
(`walk_loops`). `walk_hom` carries a walk along a map of the vertices that respects the edges.
-/

namespace Lib

section
variable {ν ι : Type}

def walk (E : ν → ι → Option ν) : ν → List ι → Option ν
  | v, [] => some v
  | v, i :: is => (E v i).bind fun w => walk E w is

/-- The walk along `is` looks at edge `i` of `w`, which may be missing. -/
def Reads (E : ν → ι → Option ν) (v : ν) (is : List ι) (w : ν) (i : ι) : Prop :=
  ∃ js ks, is = js ++ i :: ks ∧ walk E v js = some w

variable {E E' : ν → ι → Option ν} {v w : ν} {i : ι} {is js : List ι}

@[simp] theorem walk_nil : walk E v [] = some v := rfl

theorem walk_cons (h : E v i = some w) : walk E v (i :: is) = walk E w is := by
  rw [walk, h, Option.bind_some]

theorem walk_append : walk E v (is ++ js) = (walk E v is).bind fun w => walk E w js := by
  induction is generalizing v with
  | nil => rfl
  | cons i is ih =>
    rw [List.cons_append, walk, walk]
    cases E v i with
    | none => rfl
    | some u => exact ih

theorem walk_snoc : walk E v (is ++ [i]) = (walk E v is).bind fun w => E w i := by
  rw [walk_append]
  congr 1
  funext w
  rw [walk]
  cases E w i <;> rfl

/-- A loop at the start, taken `n` times. -/
theorem walk_loops (h : E v i = some v) (n : Nat) :
    walk E v (List.replicate n i ++ is) = walk E v is := by
  induction n with
  | zero => rfl
  | succ n ih => rw [List.replicate_succ, List.cons_append, walk_cons h, ih]

/-- A vertex whose edges all lead back to it. -/
theorem walk_stay (h : ∀ i, E v i = some v) : walk E v is = some v := by
  induction is with
  | nil => rfl
  | cons i is ih => rw [walk_cons (h i), ih]

/-- Loops at the start dropped. -/
theorem walk_dropWhile [DecidableEq ι] (h : E v i = some v) :
    walk E v (is.dropWhile (· = i)) = walk E v is := by
  induction is with
  | nil => rfl
  | cons j is ih =>
    by_cases hj : j = i
    · subst hj
      rw [List.dropWhile_cons_of_pos (by simp), ih, walk_cons h]
    · rw [List.dropWhile_cons_of_neg (by simpa using hj)]

/-- A set of vertices that no edge leaves. -/
theorem walk_closed {S : ν → Prop} (hS : ∀ v i w, S v → E v i = some w → S w) (hv : S v)
    (h : walk E v is = some w) : S w := by
  induction is generalizing v with
  | nil =>
    cases h
    exact hv
  | cons i is ih =>
    obtain ⟨u, hu, h⟩ := Option.bind_eq_some_iff.1 h
    exact ih (hS _ _ _ hv hu) h

/-- **New edges** keep every walk there is. -/
theorem walk_mono (hE : ∀ v i w, E v i = some w → E' v i = some w) (h : walk E v is = some w) :
    walk E' v is = some w := by
  induction is generalizing v with
  | nil => exact h
  | cons i is ih =>
    obtain ⟨u, hu, h⟩ := Option.bind_eq_some_iff.1 h
    rw [walk_cons (hE _ _ _ hu)]
    exact ih h

/-- Where a walk stops early. -/
theorem walk_none (h : walk E v is = none) :
    ∃ js i ks w, is = js ++ i :: ks ∧ walk E v js = some w ∧ E w i = none := by
  induction is generalizing v with
  | nil => cases h
  | cons i is ih =>
    cases hi : E v i with
    | none => exact ⟨[], i, is, v, rfl, rfl, hi⟩
    | some u =>
      rw [walk_cons hi] at h
      obtain ⟨js, j, ks, w, rfl, hw, hj⟩ := ih h
      exact ⟨i :: js, j, ks, w, rfl, by rw [walk_cons hi, hw], hj⟩

theorem Reads.head : Reads E v (i :: is) v i := ⟨[], is, rfl, rfl⟩

theorem Reads.tail (hu : E v i = some w) {u : ν} {j : ι} (h : Reads E w is u j) :
    Reads E v (i :: is) u j := by
  obtain ⟨js, ks, rfl, hw⟩ := h
  exact ⟨i :: js, ks, rfl, by rwa [walk_cons hu]⟩

/-- What a walk looks at: the first edge, or one of those after it. -/
theorem Reads.cases {u : ν} {j : ι} (h : Reads E v (i :: is) u j) :
    u = v ∧ j = i ∨ ∃ w, E v i = some w ∧ Reads E w is u j := by
  obtain ⟨js, ks, hsplit, hw⟩ := h
  cases js with
  | nil => exact .inl ⟨(Option.some.inj hw).symm, (List.cons.inj hsplit).1.symm⟩
  | cons x js =>
    obtain ⟨rfl, rfl⟩ := List.cons.inj hsplit
    obtain ⟨w, hi, hw⟩ := Option.bind_eq_some_iff.1 hw
    exact .inr ⟨w, hi, js, ks, rfl, hw⟩

/-- A read in the first part of a walk. -/
theorem Reads.append {u : ν} {j : ι} (h : Reads E v is u j) : Reads E v (is ++ js) u j := by
  obtain ⟨l, r, rfl, hw⟩ := h
  exact ⟨l, r ++ js, by rw [List.append_assoc, List.cons_append], hw⟩

/-- **Only the edges read matter.** -/
theorem walk_congr (h : ∀ u j, Reads E v is u j → E' u j = E u j) :
    walk E' v is = walk E v is := by
  induction is generalizing v with
  | nil => rfl
  | cons i is ih =>
    rw [walk, walk, h v i .head]
    cases hu : E v i with
    | none => rfl
    | some w => exact ih fun u j hr => h u j (hr.tail hu)

theorem Reads.congr (h : ∀ u j, Reads E v is u j → E' u j = E u j) (hr : Reads E' v is w i) :
    Reads E v is w i := by
  obtain ⟨js, ks, rfl, hw⟩ := hr
  exact ⟨js, ks, rfl, by rwa [← walk_congr fun u j hj => h u j hj.append]⟩

/-- The edge taken at every step of a walk is there. -/
theorem Reads.isSome (hw : walk E v is = some w) {u : ν} {j : ι} (h : Reads E v is u j) :
    ∃ x, E u j = some x := by
  obtain ⟨js, ks, rfl, hu⟩ := h
  rw [walk_append, hu, Option.bind_some, walk] at hw
  obtain ⟨x, hx, -⟩ := Option.bind_eq_some_iff.1 hw
  exact ⟨x, hx⟩

/-- The first of the moments at which a walk looks at an edge. -/
theorem Reads.first (h : Reads E v is w i) :
    ∃ js ks, is = js ++ i :: ks ∧ walk E v js = some w ∧ ¬ Reads E v js w i := by
  obtain ⟨js, ks, rfl, hw⟩ := h
  induction hn : js.length using Nat.strongRecOn generalizing js ks with
  | ind n ih =>
    by_cases hr : Reads E v js w i
    · obtain ⟨l, r, rfl, hl⟩ := hr
      have hlt : l.length < n := by
        rw [← hn, List.length_append, List.length_cons]
        omega
      obtain ⟨js', ks', he, h⟩ := ih _ hlt l (r ++ i :: ks) hl rfl
      exact ⟨js', ks', by rw [List.append_assoc, List.cons_append, he], h⟩
    · exact ⟨js, ks, rfl, hw, hr⟩

/-- **Labelled vertices**: where `τ` maps the edges of `E` to edges of `F`, it maps the end of a
walk to the end of the walk along the same labels. -/
theorem walk_hom {κ : Type} {F : κ → ι → Option κ} {τ : ν → Option κ} {p q : κ}
    (hτ : ∀ v i w p q, τ v = some p → E v i = some w → F p i = some q → τ w = some q)
    (hv : τ v = some p) (hw : walk E v is = some w) (hq : walk F p is = some q) : τ w = some q := by
  induction is generalizing v p with
  | nil =>
    cases hw
    cases hq
    exact hv
  | cons i is ih =>
    obtain ⟨u, hu, hw⟩ := Option.bind_eq_some_iff.1 hw
    obtain ⟨r, hr, hq⟩ := Option.bind_eq_some_iff.1 hq
    exact ih (hτ v i u p r hv hu hr) hw hq

end

end Lib
