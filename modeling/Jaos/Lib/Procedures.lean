import Mathlib

/-!
# Procedures that call each other

A `Code S E C` computes on a state `S`, shows events `E` and calls procedures `C`, each of which returns
a number and a state. `body n c s` is the procedure `c` called in the state `s`, where `n` bounds the
loops inside of it. `Yields` and `Shows` are what a run returns and what happens during it; the calls of
a run end one inside the other, and each takes the bound that it needs.

A lock that must not be taken by its holder is an example. `Sections` describes code that runs outside
of all sections but for short ones, which an event begins and which call one procedure at most. If such
a call shows events exactly if the section's event is a bad one, then these events are seen in a run
exactly if bad ones are (`Sections.held_iff`).
-/

namespace Lib

inductive Code (S E C : Type) where
  | ret (a : Nat) (s : S)
  | stuck
  | event (e : E) (k : Code S E C)
  | call (c : C) (s : S) (k : Nat → S → Code S E C)

section
variable {S E C : Type} (body : Nat → C → S → Code S E C)

/-- The code returns `a` in the state `s`. -/
inductive Yields : Code S E C → Nat → S → Prop
  | ret {a : Nat} {s : S} : Yields (.ret a s) a s
  | event {e : E} {k : Code S E C} {a : Nat} {s : S} : Yields k a s → Yields (.event e k) a s
  | call {c : C} {s t u : S} {k : Nat → S → Code S E C} {n v a : Nat} :
      Yields (body n c s) v t → Yields (k v t) a u → Yields (.call c s k) a u

/-- A run of the code comes to the event `e`. -/
inductive Shows : Code S E C → E → Prop
  | here {e : E} {k : Code S E C} : Shows (.event e k) e
  | after {e e' : E} {k : Code S E C} : Shows k e → Shows (.event e' k) e
  | inside {c : C} {s : S} {k : Nat → S → Code S E C} {n : Nat} {e : E} :
      Shows (body n c s) e → Shows (.call c s k) e
  | behind {c : C} {s t : S} {k : Nat → S → Code S E C} {n v : Nat} {e : E} :
      Yields body (body n c s) v t → Shows (k v t) e → Shows (.call c s k) e

/-- The procedure `c`, called in the state `s`, comes to the event `e`. -/
def Enters (c : C) (s : S) (e : E) : Prop := ∃ n, Shows body (body n c s) e

section
variable {body} {a b n : Nat} {c : C} {s t u : S} {e e' : E} {k : Code S E C} {f : Nat → S → Code S E C}

@[simp] theorem yields_ret : Yields body (.ret a s) b t ↔ b = a ∧ t = s :=
  ⟨fun h => by cases h; exact ⟨rfl, rfl⟩, fun ⟨ha, hs⟩ => by rw [ha, hs]; exact .ret⟩

@[simp] theorem not_yields_stuck : ¬ Yields body .stuck a s := nofun

@[simp] theorem yields_event : Yields body (.event e k) a s ↔ Yields body k a s :=
  ⟨fun h => by cases h; assumption, .event⟩

theorem yields_call :
    Yields body (.call c s f) a u ↔ ∃ n v t, Yields body (body n c s) v t ∧ Yields body (f v t) a u :=
  ⟨fun | .call h h' => ⟨_, _, _, h, h'⟩, fun ⟨_, _, _, h, h'⟩ => .call h h'⟩

@[simp] theorem not_shows_ret : ¬ Shows body (.ret a s) e := nofun

@[simp] theorem not_shows_stuck : ¬ Shows body .stuck e := nofun

@[simp] theorem shows_event : Shows body (.event e k) e' ↔ e' = e ∨ Shows body k e' := by
  constructor
  · intro h
    cases h with
    | here => exact .inl rfl
    | after h => exact .inr h
  · rintro (rfl | h)
    · exact .here
    · exact h.after

theorem shows_call : Shows body (.call c s f) e ↔
    Enters body c s e ∨ ∃ n v t, Yields body (body n c s) v t ∧ Shows body (f v t) e := by
  constructor
  · intro h
    cases h with
    | inside h => exact .inl ⟨_, h⟩
    | behind h h' => exact .inr ⟨_, _, _, h, h'⟩
  · rintro (⟨n, h⟩ | ⟨n, v, t, h, h'⟩)
    · exact h.inside
    · exact .behind h h'

end

/-! ## Sections -/

section
variable (Free : S → Prop) (Held Bad : E → Prop)

/-- The code is outside of all sections, or in the one that an event has begun and about to make the
call of that section. -/
inductive Sections : Option E → Code S E C → Prop
  | ret {a : Nat} {s : S} : Free s → Sections none (.ret a s)
  | stuck : Sections none .stuck
  | call {c : C} {s : S} {k : Nat → S → Code S E C} : Free s →
      (∀ v t, Free t → Sections none (k v t)) → Sections none (.call c s k)
  | pass {e : E} {k : Code S E C} : ¬ Held e → ¬ Bad e → Sections none k → Sections none (.event e k)
  | enter {e : E} {k : Code S E C} : ¬ Held e → Sections (some e) k → Sections none (.event e k)
  | leave {e : E} {c : C} {s : S} {k : Nat → S → Code S E C} : (∀ e', Enters body c s e' → Held e') →
      ((∃ e', Enters body c s e') ↔ Bad e) →
      (∀ n v t, Yields body (body n c s) v t → Sections none (k v t)) →
      Sections (some e) (.call c s k)

end

variable {body} {Free : S → Prop} {Held Bad : E → Prop} {o : Option E} {p : Code S E C}

/-- The code ends outside of all sections. -/
theorem Sections.free (hbody : ∀ n c s, Free s → Sections body Free Held Bad none (body n c s))
    (h : Sections body Free Held Bad o p) {a : Nat} {s : S} (hy : Yields body p a s) : Free s := by
  induction hy generalizing o with
  | ret =>
    cases h with
    | ret hs => exact hs
  | event _ ih =>
    cases h with
    | pass _ _ hk => exact ih hk
    | enter _ hk => exact ih hk
  | call hc _ ih ih' =>
    cases h with
    | call hs hk => exact ih' (hk _ _ (ih (hbody _ _ _ hs)))
    | leave _ _ hk => exact ih' (hk _ _ _ hc)

/-- What happens inside a section, happens in a bad one. -/
theorem Sections.bad_of_held (hbody : ∀ n c s, Free s → Sections body Free Held Bad none (body n c s))
    (h : Sections body Free Held Bad o p) {e : E} (hs : Shows body p e) (he : Held e) :
    (∃ e', Shows body p e' ∧ Bad e') ∨ ∃ e', o = some e' ∧ Bad e' := by
  induction hs generalizing o with
  | here =>
    cases h with
    | pass hn _ _ => exact absurd he hn
    | enter hn _ => exact absurd he hn
  | after _ ih =>
    cases h with
    | pass _ _ hk =>
      rcases ih hk he with ⟨e', h', hb⟩ | ⟨e', h', -⟩
      · exact .inl ⟨e', h'.after, hb⟩
      · cases h'
    | enter _ hk =>
      rcases ih hk he with ⟨e', h', hb⟩ | ⟨e', h', hb⟩
      · exact .inl ⟨e', h'.after, hb⟩
      · cases h'
        exact .inl ⟨_, .here, hb⟩
  | @inside c s k n e hshow ih =>
    cases h with
    | call hs _ =>
      rcases ih (hbody _ _ _ hs) he with ⟨e', h', hb⟩ | ⟨e', h', -⟩
      · exact .inl ⟨e', h'.inside, hb⟩
      · cases h'
    | leave _ hiff _ => exact .inr ⟨_, rfl, hiff.1 ⟨e, n, hshow⟩⟩
  | @behind c s t k n v e hy _ ih =>
    have hk : Sections body Free Held Bad none (k v t) := by
      cases h with
      | call hs hk => exact hk _ _ ((hbody _ _ _ hs).free hbody hy)
      | leave _ _ hk => exact hk _ _ _ hy
    rcases ih hk he with ⟨e', h', hb⟩ | ⟨e', h', -⟩
    · exact .inl ⟨e', .behind hy h', hb⟩
    · cases h'

/-- In a bad section something happens. -/
theorem Sections.held_of_bad (hbody : ∀ n c s, Free s → Sections body Free Held Bad none (body n c s))
    (h : Sections body Free Held Bad o p) {e : E} (hs : Shows body p e) (he : Bad e) :
    ∃ e', Shows body p e' ∧ Held e' := by
  induction hs generalizing o with
  | here =>
    cases h with
    | pass _ hn _ => exact absurd he hn
    | enter _ hk =>
      cases hk with
      | leave hheld hiff _ =>
        obtain ⟨e', n, h'⟩ := hiff.2 he
        exact ⟨e', .after h'.inside, hheld e' ⟨n, h'⟩⟩
  | after _ ih =>
    obtain ⟨e', h', hh⟩ : ∃ e', Shows body _ e' ∧ Held e' := by
      cases h with
      | pass _ _ hk => exact ih hk he
      | enter _ hk => exact ih hk he
    exact ⟨e', h'.after, hh⟩
  | @inside c s k n e hshow ih =>
    cases h with
    | call hs _ =>
      obtain ⟨e', h', hh⟩ := ih (hbody _ _ _ hs) he
      exact ⟨e', h'.inside, hh⟩
    | leave hheld _ _ => exact ⟨e, hshow.inside, hheld e ⟨n, hshow⟩⟩
  | @behind c s t k n v e hy _ ih =>
    have hk : Sections body Free Held Bad none (k v t) := by
      cases h with
      | call hs hk => exact hk _ _ ((hbody _ _ _ hs).free hbody hy)
      | leave _ _ hk => exact hk _ _ _ hy
    obtain ⟨e', h', hh⟩ := ih hk he
    exact ⟨e', .behind hy h', hh⟩

/-- **Nothing happens inside a section** exactly if no section is a bad one. -/
theorem Sections.held_iff (hbody : ∀ n c s, Free s → Sections body Free Held Bad none (body n c s))
    {c : C} {s : S} (hs : Free s) :
    (∀ e, Enters body c s e → ¬ Held e) ↔ ∀ e, Enters body c s e → ¬ Bad e := by
  constructor
  · rintro h e ⟨n, he⟩ hb
    obtain ⟨e', h', hh⟩ := (hbody n c s hs).held_of_bad hbody he hb
    exact h e' ⟨n, h'⟩ hh
  · rintro h e ⟨n, he⟩ hh
    rcases (hbody n c s hs).bad_of_held hbody he hh with ⟨e', h', hb⟩ | ⟨e', h', -⟩
    · exact h e' ⟨n, h'⟩ hb
    · cases h'

end

end Lib
