import Mathlib

/-!
# Counting loops

`loop body k i` runs `body` for the `k` counter values from `i` on and stops with `none` when a run
of the body does. `loop_invariant` is the rule for an invariant that may mention the counter, and
`loop_total` the one for a loop that has to get to its end. `Gets` is for programs that do so unless
they come through a bad state, and never go back up behind it.
-/

namespace Lib

section
variable {σ : Type}

def loop (body : Nat → σ → Option σ) : (k i : Nat) → σ → Option σ
  | 0, _, s => some s
  | k + 1, i, s => (body i s).bind (loop body k (i + 1))

variable {body : Nat → σ → Option σ} {P : Nat → σ → Prop}

theorem loop_invariant {k i : Nat} {s s' : σ}
    (hbody : ∀ j s s', i ≤ j → j < i + k → P j s → body j s = some s' → P (j + 1) s')
    (h : P i s) (hrun : loop body k i s = some s') : P (i + k) s' := by
  induction k generalizing i s with
  | zero =>
    cases hrun
    exact h
  | succ k ih =>
    obtain ⟨t, ht, hrun⟩ := Option.bind_eq_some_iff.1 hrun
    have := ih (fun j s s' h1 h2 => hbody j s s' (by omega) (by omega))
      (hbody i s t (Nat.le_refl _) (by omega) h ht) hrun
    rwa [show i + (k + 1) = i + 1 + k by omega]

theorem loop_total {k i : Nat} {s : σ}
    (hbody : ∀ j s, i ≤ j → j < i + k → P j s → ∃ s', body j s = some s' ∧ P (j + 1) s')
    (h : P i s) : ∃ s', loop body k i s = some s' ∧ P (i + k) s' := by
  induction k generalizing i s with
  | zero => exact ⟨s, rfl, h⟩
  | succ k ih =>
    obtain ⟨t, ht, hp⟩ := hbody i s (Nat.le_refl _) (by omega) h
    obtain ⟨s', hs', hp'⟩ := ih (fun j s h1 h2 => hbody j s (by omega) (by omega)) hp
    exact ⟨s', by rw [loop, ht, Option.bind_some, hs'], by rwa [show i + (k + 1) = i + 1 + k by omega]⟩

/-- Two parts of a loop. -/
theorem loop_add {a b i : Nat} {s : σ} :
    loop body (a + b) i s = (loop body a i s).bind (loop body b (i + a)) := by
  induction a generalizing i s with
  | zero => rw [Nat.zero_add, Nat.add_zero]; rfl
  | succ a ih =>
    rw [Nat.succ_add, loop, loop, Option.bind_assoc]
    refine congrArg _ (funext fun t => ?_)
    rw [ih, Nat.add_assoc, Nat.add_comm 1]

theorem loop_one {i : Nat} {s : σ} : loop body 1 i s = body i s := Option.bind_fun_some _

/-- Passes that change nothing. -/
theorem loop_skip {k i : Nat} {s : σ} (h : ∀ j, i ≤ j → j < i + k → body j s = some s) :
    loop body k i s = some s := by
  induction k generalizing i with
  | zero => rfl
  | succ k ih =>
    rw [loop, h i (Nat.le_refl _) (by omega), Option.bind_some]
    exact ih fun j h1 h2 => h j (by omega) (by omega)

/-! ## Programs that get to their end or come through a bad state -/

/-- `f` leads from `P` to `Q`, or it comes through a state of `B` and what it leads to is related to
that state by `R`. -/
def Gets (B : σ → Prop) (R : σ → σ → Prop) (P Q : σ → Prop) (f : σ → Option σ) : Prop :=
  ∀ s, P s → (∃ s', f s = some s' ∧ Q s') ∨ ∃ b, B b ∧ ∀ s', f s = some s' → R b s'

section
variable {B : σ → Prop} {R : σ → σ → Prop} {P Q S : σ → Prop} {f g : σ → Option σ}

theorem Gets.bind (htrans : ∀ a b c, R a b → R b c → R a c)
    (hR : ∀ s s', g s = some s' → R s s') (hf : Gets B R P Q f) (hg : Gets B R Q S g) :
    Gets B R P S fun s => (f s).bind g := by
  intro s hs
  rcases hf s hs with ⟨t, ht, hq⟩ | ⟨b, hb, hbelow⟩
  · dsimp only
    rw [ht, Option.bind_some]
    exact hg t hq
  · refine .inr ⟨b, hb, fun s' hs' => ?_⟩
    obtain ⟨t, ht, hs'⟩ := Option.bind_eq_some_iff.1 hs'
    exact htrans b t s' (hbelow t ht) (hR t s' hs')

/-- What `R` relates before and after each pass it relates before and after the loop. -/
theorem loop_related {n i : Nat} {s s' : σ} (hrefl : ∀ a, R a a) (htrans : ∀ a b c, R a b → R b c → R a c)
    (hR : ∀ j s s', body j s = some s' → R s s') (h : loop body n i s = some s') : R s s' :=
  loop_invariant (P := fun _ t => R s t) (fun j t t' _ _ ht hr => htrans s t t' ht (hR j t t' hr))
    (hrefl s) h

theorem Gets.loop {P : Nat → σ → Prop} {n i : Nat} (hrefl : ∀ a, R a a)
    (htrans : ∀ a b c, R a b → R b c → R a c) (hR : ∀ j s s', body j s = some s' → R s s')
    (h : ∀ j, i ≤ j → j < i + n → Gets B R (P j) (P (j + 1)) (body j)) :
    Gets B R (P i) (P (i + n)) (loop body n i) := by
  induction n generalizing i with
  | zero => exact fun s hs => .inl ⟨s, rfl, hs⟩
  | succ n ih =>
    have htail := ih (i := i + 1) fun j h1 h2 => h j (by omega) (by omega)
    rw [show i + 1 + n = i + (n + 1) by omega] at htail
    exact (h i (Nat.le_refl _) (by omega)).bind htrans
      (fun s s' hs => loop_related hrefl htrans hR hs) htail

end

end

end Lib
