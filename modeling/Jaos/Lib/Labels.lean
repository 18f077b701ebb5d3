import Mathlib

/-!
# Code with labels

Assembly code is made of blocks that begin at a label. `step l s` runs the block at `l`, which ends in a
jump to a label or in a `ret` to the address that it takes from the stack; it is `none` where the block
does not end. `ReturnsTo` relates a state at a label to the address and the state of the first `ret`,
of which there is one at most (`ReturnsTo.unique`).
-/

namespace Lib

/-- How a block ends. -/
inductive Jump (L : Type) where
  | label (l : L)
  | address (a : Nat)

section
variable {L S : Type} (step : L → S → Option (Jump L × S))

/-- The blocks from `l` on, up to the first `ret`. -/
def runLabels : (fuel : Nat) → L → S → Option (Nat × S)
  | 0, _, _ => none
  | fuel + 1, l, s =>
    (step l s).bind fun r =>
      match r.1 with
      | .label l' => runLabels fuel l' r.2
      | .address a => some (a, r.2)

/-- The code at `l` returns to the address `a`. -/
def ReturnsTo (l : L) (s : S) (a : Nat) (t : S) : Prop := ∃ fuel, runLabels step fuel l s = some (a, t)

variable {step} {l l' : L} {s s' t t' : S} {a a' : Nat}

theorem ReturnsTo.ret (h : step l s = some (.address a, t)) : ReturnsTo step l s a t :=
  ⟨1, by rw [runLabels, h, Option.bind_some]⟩

theorem ReturnsTo.jump (h : step l s = some (.label l', s')) (h' : ReturnsTo step l' s' a t) :
    ReturnsTo step l s a t := by
  obtain ⟨fuel, h'⟩ := h'
  refine ⟨fuel + 1, ?_⟩
  rw [runLabels, h, Option.bind_some]
  exact h'

/-- More fuel changes nothing. -/
theorem runLabels_mono {fuel n : Nat} {r : Nat × S} (h : runLabels step fuel l s = some r) (hle : fuel ≤ n) :
    runLabels step n l s = some r := by
  induction fuel generalizing l s n with
  | zero => cases h
  | succ fuel ih =>
    obtain ⟨n, rfl⟩ : ∃ k, n = k + 1 := ⟨n - 1, by omega⟩
    rw [runLabels] at h ⊢
    cases hstep : step l s with
    | none =>
      rw [hstep] at h
      cases h
    | some x =>
      obtain ⟨j, s'⟩ := x
      rw [hstep, Option.bind_some] at h
      rw [Option.bind_some]
      cases j with
      | label l' => exact ih h (Nat.le_of_succ_le_succ hle)
      | address a => exact h

/-- **The code returns once.** -/
theorem ReturnsTo.unique (h : ReturnsTo step l s a t) (h' : ReturnsTo step l s a' t') : a = a' ∧ t = t' := by
  obtain ⟨n, h⟩ := h
  obtain ⟨n', h'⟩ := h'
  have hsame := runLabels_mono h (Nat.le_max_left n n')
  rw [runLabels_mono h' (Nat.le_max_right n n')] at hsame
  cases hsame
  exact ⟨rfl, rfl⟩

end

end Lib
