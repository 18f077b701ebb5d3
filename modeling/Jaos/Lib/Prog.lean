import Mathlib

/-!
# Programs with calls to the outside

A `Prog S Q α` computes on a state `S` and stops at calls `Q` that somebody else answers by giving
back a state. `calls` says whether there is one: the first node of the tree is the first thing that
is not internal. `exec` answers them with a function.
-/

namespace Lib

/-- A program that returns `α`; `stuck` does not return. -/
inductive Prog (S Q α : Type)
  | ret (a : α) (s : S)
  | stuck
  | call (q : Q) (s : S) (k : S → Prog S Q α)

namespace Prog

variable {S Q α β : Type}

def bind : Prog S Q α → (α → S → Prog S Q β) → Prog S Q β
  | .ret a s, f => f a s
  | .stuck, _ => .stuck
  | .call q s k, f => .call q s fun s => (k s).bind f

/-- The call `q` if `c` holds. -/
def callIf (c : Prop) [Decidable c] (q : Q) (s : S) (k : S → Prog S Q α) : Prog S Q α :=
  if c then .call q s k else k s

/-- The program makes a call. -/
def calls : Prog S Q α → Prop
  | .call _ _ _ => True
  | _ => False

/-- The calls answered by `f`. -/
def exec (f : Q → S → S) : Prog S Q α → Option (α × S)
  | .ret a s => some (a, s)
  | .stuck => none
  | .call q s k => (k (f q s)).exec f

section
variable {f : Q → S → S} {p : Prog S Q α} {g : α → S → Prog S Q β} {c : Prop} [Decidable c] {q : Q}
  {s : S} {k : S → Prog S Q α}

theorem exec_bind : (p.bind g).exec f = (p.exec f).bind fun r => (g r.1 r.2).exec f := by
  induction p with
  | ret a s => rfl
  | stuck => rfl
  | call q s k ih => exact ih (f q s)

theorem exec_callIf : (callIf c q s k).exec f = (k (if c then f q s else s)).exec f := by
  unfold callIf
  split <;> rfl

@[simp] theorem calls_call : (Prog.call q s k).calls := trivial

@[simp] theorem not_calls_ret {a : α} : ¬ (Prog.ret a s : Prog S Q α).calls := id

theorem calls_callIf : (callIf c q s k).calls ↔ c ∨ (k s).calls := by
  unfold callIf
  by_cases hc : c
  · rw [if_pos hc]
    exact iff_of_true trivial (.inl hc)
  · rw [if_neg hc]
    exact (or_iff_right hc).symm

/-- The first part calls, or it returns and the rest calls. -/
theorem calls_bind : (p.bind g).calls ↔ p.calls ∨ ∃ a s, p = .ret a s ∧ (g a s).calls := by
  cases p with
  | ret a s =>
    refine ⟨fun h => .inr ⟨a, s, rfl, h⟩, ?_⟩
    rintro (h | ⟨b, t, h, hg⟩)
    · exact h.elim
    · cases h
      exact hg
  | stuck =>
    refine ⟨fun h => h.elim, ?_⟩
    rintro (h | ⟨b, t, h, -⟩)
    · exact h.elim
    · cases h
  | call q s k => exact iff_of_true trivial (.inl trivial)

/-- A program that does not call is what `exec` makes of it. -/
theorem eq_ret_of_exec {a : α} (h : p.exec f = some (a, s)) (hn : ¬ p.calls) : p = .ret a s := by
  cases p with
  | ret b t =>
    obtain ⟨rfl, rfl⟩ := Prod.mk.inj (Option.some.inj h)
    rfl
  | stuck => cases h
  | call q t k => exact absurd trivial hn

theorem calls_bind_of_exec {a : α} (h : p.exec f = some (a, s)) :
    (p.bind g).calls ↔ p.calls ∨ (g a s).calls := by
  by_cases hp : p.calls
  · exact iff_of_true (calls_bind.2 (.inl hp)) (.inl hp)
  · rw [eq_ret_of_exec h hp]
    exact (or_iff_right not_calls_ret).symm

end

end Prog

end Lib
