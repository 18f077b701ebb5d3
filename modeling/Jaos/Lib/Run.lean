import Mathlib

/-!
# Runs of a labelled transition system

`Reach init step s`: `s` is reached from an initial state by a finite run, the empty one included.
`Reach.invariant` is the induction rule for a property that holds at the start and is kept by every
step, and `Reach.of_list` turns an executable list of labels into a run.
-/

namespace Lib

/-- The states of the finite runs of `step` from the states of `init`. -/
inductive Reach {σ α : Type} (init : σ → Prop) (step : σ → α → σ → Prop) : σ → Prop
  | start {s : σ} : init s → Reach init step s
  | next {s s' : σ} {a : α} : Reach init step s → step s a s' → Reach init step s'

section
variable {σ α : Type} {init : σ → Prop} {step : σ → α → σ → Prop}

/-- A property of the initial states that every step keeps holds in every state reached. -/
theorem Reach.invariant {P : σ → Prop} {s : σ} (h : Reach init step s) (h0 : ∀ s, init s → P s)
    (hs : ∀ s a s', P s → step s a s' → P s') : P s := by
  induction h with
  | start h => exact h0 _ h
  | next _ h ih => exact hs _ _ _ ih h

/-- A run of a smaller relation is one of the larger. -/
theorem Reach.mono {step' : σ → α → σ → Prop} {s : σ} (h : Reach init step s)
    (hs : ∀ s a s', step s a s' → step' s a s') : Reach init step' s := by
  induction h with
  | start h => exact .start h
  | next _ h ih => exact ih.next (hs _ _ _ h)

/-- Running a list of labels through a partial step function. -/
def runList (f : σ → α → Option σ) : List α → σ → Option σ
  | [], s => some s
  | a :: as, s => (f s a).bind (runList f as)

theorem runList_append {f : σ → α → Option σ} {as bs : List α} {s : σ} :
    runList f (as ++ bs) s = (runList f as s).bind (runList f bs) := by
  induction as generalizing s with
  | nil => rfl
  | cons a as ih =>
    rw [List.cons_append, runList, runList, Option.bind_assoc]
    exact congrArg _ (funext fun t => ih)

theorem Reach.of_list {f : σ → α → Option σ} (hf : ∀ s a s', f s a = some s' → step s a s')
    {as : List α} {s s' : σ} (h : Reach init step s) (hr : runList f as s = some s') :
    Reach init step s' := by
  induction as generalizing s with
  | nil =>
    cases hr
    exact h
  | cons a as ih =>
    obtain ⟨t, ht, hr⟩ := Option.bind_eq_some_iff.1 hr
    exact ih (h.next (hf _ _ _ ht)) hr

end

end Lib
