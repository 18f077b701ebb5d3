import Jaos.Lib.Loop

/-!
# Memory with bounds

`Cells` is a byte memory in which only some addresses may be accessed: a load or a store at any other
one gives `none`. So a run that returns has touched nothing but cells, and a theorem for every memory
that has the cells it names says that no other one is needed. `CString` is a NUL-terminated string in
such a memory, `Agree` the frame of the stores. `intLoop` is the loop of C with an `int` counter, whose
overflow is undefined.
-/

namespace Lib

/-- Byte memory in which the addresses without a value may not be accessed. -/
abbrev Cells := Nat → Option UInt8

namespace Cells

/-- A byte stored at `a`. -/
def put (m : Cells) (a : Nat) (b : UInt8) : Option Cells :=
  if (m a).isSome then some fun x => if x = a then some b else m x else none

/-- The `n` cells from `a` on are there. -/
def Has (m : Cells) (a n : Nat) : Prop := ∀ i < n, (m (a + i)).isSome

/-- The bytes `s` are at `a`. -/
def Holds (m : Cells) (a : Nat) (s : List UInt8) : Prop := ∀ i < s.length, m (a + i) = s[i]?

/-- The memories are the same outside `[a, a + n)`. -/
def Agree (m m' : Cells) (a n : Nat) : Prop := ∀ x, x < a ∨ a + n ≤ x → m' x = m x

/-- The string `s` is at `a`, with its NUL. -/
structure CString (m : Cells) (a : Nat) (s : List UInt8) : Prop where
  bytes : m.Holds a s
  nul : m (a + s.length) = some 0
  noNul : 0 ∉ s

section
variable {m m' : Cells} {a b n k : Nat} {c : UInt8} {s : List UInt8}

theorem put_eq (h : (m a).isSome) : m.put a c = some fun x => if x = a then some c else m x :=
  if_pos h

theorem put_spec (h : m.put a c = some m') : m' a = some c ∧ ∀ x, x ≠ a → m' x = m x := by
  unfold put at h
  split at h
  · cases h
    exact ⟨if_pos rfl, fun x hx => if_neg hx⟩
  · cases h

/-- A store leaves the cells where they are. -/
theorem Has.put (h : m.Has b n) (hp : m.put a c = some m') : m'.Has b n := by
  obtain ⟨hsame, hother⟩ := put_spec hp
  intro i hi
  by_cases hx : b + i = a
  · simp [hx, hsame]
  · rw [hother _ hx]
    exact h i hi

theorem Agree.refl : Agree m m a n := fun _ _ => rfl

theorem Agree.put (h : Agree m m' a n) {m'' : Cells} (hk : k < n) (hp : m'.put (a + k) c = some m'') :
    Agree m m'' a n := by
  intro x hx
  rw [(put_spec hp).2 x (by omega)]
  exact h x hx

theorem Agree.trans {m'' : Cells} (h : Agree m m' a n) (h' : Agree m' m'' a n) : Agree m m'' a n :=
  fun x hx => (h' x hx).trans (h x hx)

theorem Agree.mono {b k : Nat} (h : Agree m m' a n) (hb : b ≤ a) (hk : a + n ≤ b + k) :
    Agree m m' b k := fun x hx => h x (by omega)

theorem Agree.has (h : Agree m m' a n) (hm : m.Has b k) (hd : b + k ≤ a ∨ a + n ≤ b) :
    m'.Has b k := by
  intro i hi
  rw [h _ (by omega)]
  exact hm i hi

theorem CString.agree (hs : m.CString b s) (h : Agree m m' a n)
    (hd : b + s.length + 1 ≤ a ∨ a + n ≤ b) : m'.CString b s where
  bytes i hi := (h _ (by omega)).trans (hs.bytes i hi)
  nul := (h _ (by omega)).trans hs.nul
  noNul := hs.noNul

theorem CString.nil_eq (h : m.CString a []) : m a = some 0 := h.nul

/-- The first byte and the string behind it. -/
theorem CString.cons_eq (h : m.CString a (c :: s)) :
    m a = some c ∧ c ≠ 0 ∧ m.CString (a + 1) s := by
  refine ⟨by simpa using h.bytes 0 (by simp), fun h0 => h.noNul (by simp [h0]), fun i hi => ?_, ?_,
    fun h0 => h.noNul (by simp [h0])⟩
  · have := h.bytes (i + 1) (by simpa using hi)
    simpa [Nat.add_assoc, Nat.add_comm 1] using this
  · simpa [Nat.add_assoc, Nat.add_comm 1] using h.nul

theorem CString.byte (hs : m.CString a s) (hk : k < s.length) :
    ∃ c, c ≠ 0 ∧ s[k]? = some c ∧ m (a + k) = some c := by
  refine ⟨s[k], fun h0 => hs.noNul ?_, List.getElem?_eq_getElem hk, ?_⟩
  · rw [← h0]
    exact List.getElem_mem hk
  · rw [hs.bytes k hk, List.getElem?_eq_getElem hk]

/-- Every byte of the string and its NUL can be read. -/
theorem CString.getElem? (hs : m.CString a s) (hk : k ≤ s.length) :
    m (a + k) = (s ++ [0])[k]? := by
  rcases Nat.lt_or_eq_of_le hk with hlt | rfl
  · rw [List.getElem?_append_left hlt]
    exact hs.bytes k hlt
  · rw [List.getElem?_concat_length]
    exact hs.nul

end

end Cells

/-! ## Loops with an `int` -/

section
variable {σ : Type} {body : Nat → σ → Option σ} {n : Int} {P : Nat → σ → Prop} {s : σ}

/-- `for (i = 0; i < n; i++)` with `int i`. -/
def intLoop (body : Nat → σ → Option σ) (n : Int) : σ → Option σ :=
  loop (fun i s => if i + 1 < 2 ^ 31 then body i s else none) n.toNat 0

theorem intLoop_total (hn : n < 2 ^ 31)
    (hbody : ∀ (i : Nat) (s : σ), i < n → P i s → ∃ s', body i s = some s' ∧ P (i + 1) s') (h : P 0 s) :
    ∃ s', intLoop body n s = some s' ∧ P n.toNat s' := by
  have step : ∀ (i : Nat) (s : σ), 0 ≤ i → i < 0 + n.toNat → P i s →
      ∃ s', (if i + 1 < 2 ^ 31 then body i s else none) = some s' ∧ P (i + 1) s' := by
    intro i s _ hi hp
    rw [if_pos (by omega)]
    exact hbody i s (by omega) hp
  have := loop_total step h
  rwa [Nat.zero_add] at this

end

end Lib
