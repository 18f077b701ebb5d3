import Jaos.Lib.Chain

/-!
# A stack of words

The stack of a processor with words of 64 bits: it grows down, and `push` stores below the stack pointer.
`s.Holds vs` says that the words from the stack pointer up are `vs`. It is kept by `push`, `pop` and
`drop` (`Holds.push`, `Holds.pop`, `Holds.drop`), so a run of them is followed on lists. `pushAll` and
`popAll` are such runs.
-/

namespace Lib

/-- A word, or its address. -/
abbrev Word64 := BitVec 64

/-- The stack pointer, and memory by words. -/
structure Stack where
  sp : Word64
  mem : Word64 → Word64

namespace Stack

/-- The address of word `i`. -/
def slot (sp : Word64) (i : Nat) : Word64 := sp + BitVec.ofNat 64 (8 * i)

def push (v : Word64) (s : Stack) : Stack := ⟨s.sp - 8, upd s.mem (s.sp - 8) v⟩

def top (s : Stack) : Word64 := s.mem s.sp

/-- `n` words off the stack. -/
def drop (n : Nat) (s : Stack) : Stack := { s with sp := slot s.sp n }

/-- Pushes the words in order, the last one on top. -/
def pushAll (vs : List Word64) (s : Stack) : Stack := vs.foldl (fun s v => s.push v) s

/-- The words from the stack pointer up replaced by `vs`. -/
def write (vs : List Word64) (s : Stack) : Stack :=
  { s with mem := fun a =>
      if (a - s.sp).toNat % 8 = 0 then vs[(a - s.sp).toNat / 8]?.getD (s.mem a) else s.mem a }

/-- The words from the stack pointer up. -/
def Holds (s : Stack) (vs : List Word64) : Prop :=
  ∀ i v, vs[i]? = some v → s.mem (slot s.sp i) = v

section
variable {s t : Stack} {v : Word64} {vs ws : List Word64} {n : Nat}

@[simp] theorem slot_zero (sp : Word64) : slot sp 0 = sp := by simp [slot]

theorem slot_slot (sp : Word64) (i j : Nat) : slot (slot sp i) j = slot sp (i + j) := by
  unfold slot
  rw [BitVec.add_assoc, ← BitVec.ofNat_add, Nat.mul_add]

theorem slot_sub (sp : Word64) (i : Nat) : slot (sp - 8) (i + 1) = slot sp i := by
  unfold slot
  bv_omega

@[simp] theorem push_sp (v : Word64) (s : Stack) : (s.push v).sp = s.sp - 8 := rfl

@[simp] theorem drop_sp (n : Nat) (s : Stack) : (s.drop n).sp = slot s.sp n := rfl

@[simp] theorem drop_mem (n : Nat) (s : Stack) : (s.drop n).mem = s.mem := rfl

@[simp] theorem drop_push (n : Nat) (v : Word64) (s : Stack) : ((s.push v).drop (n + 1)).sp = (s.drop n).sp :=
  slot_sub s.sp n

theorem Holds.nil (s : Stack) : s.Holds [] := by
  intro i v h
  simp at h

theorem holds_cons : s.Holds (v :: vs) ↔ s.top = v ∧ (s.drop 1).Holds vs := by
  constructor
  · intro h
    refine ⟨?_, fun i w hw => ?_⟩
    · have h0 := h 0 v rfl
      rwa [slot_zero] at h0
    · rw [drop_mem, drop_sp, slot_slot, Nat.add_comm]
      exact h (i + 1) w hw
  · rintro ⟨h0, h⟩ i w hw
    cases i with
    | zero =>
      cases hw
      rwa [slot_zero]
    | succ i =>
      have hi := h i w hw
      rwa [drop_mem, drop_sp, slot_slot, Nat.add_comm] at hi

/-- **A push keeps what is below it**, as long as the stack does not run around memory. -/
theorem Holds.push (h : s.Holds vs) (hlen : vs.length < 2 ^ 61 - 1) : (s.push v).Holds (v :: vs) := by
  intro i w hw
  cases i with
  | zero =>
    cases hw
    rw [slot_zero]
    exact upd_same _ _ _
  | succ i =>
    have hi : i < vs.length := by
      obtain ⟨hi, -⟩ := List.getElem?_eq_some_iff.1 hw
      exact Nat.lt_of_succ_lt_succ hi
    rw [push_sp, slot_sub]
    refine Eq.trans (upd_ne _ _ ?_) (h i w hw)
    unfold slot
    bv_omega

/-- **A run of pushes.** -/
theorem Holds.pushAll (h : s.Holds vs) (ws : List Word64) (hlen : vs.length + ws.length < 2 ^ 61) :
    (s.pushAll ws).Holds (ws.reverse ++ vs) := by
  induction ws generalizing s vs with
  | nil => exact h
  | cons w ws ih =>
    rw [List.length_cons] at hlen
    have hw := ih (h.push (v := w) (by omega)) (by rw [List.length_cons]; omega)
    rw [List.reverse_cons, List.append_assoc]
    exact hw

theorem pushAll_sp (ws : List Word64) (s : Stack) : slot (s.pushAll ws).sp ws.length = s.sp := by
  induction ws generalizing s with
  | nil => exact slot_zero s.sp
  | cons w ws ih =>
    show slot ((s.push w).pushAll ws).sp (ws.length + 1) = s.sp
    rw [← slot_slot, ih, push_sp, slot_sub, slot_zero]

/-- **A write.** -/
theorem holds_write (vs : List Word64) (hlen : vs.length < 2 ^ 61) (s : Stack) : (s.write vs).Holds vs := by
  intro i v hv
  obtain ⟨hi, -⟩ := List.getElem?_eq_some_iff.1 hv
  have hoff : (slot s.sp i - s.sp).toNat = 8 * i := by
    unfold slot
    bv_omega
  show (if (slot s.sp i - s.sp).toNat % 8 = 0 then vs[(slot s.sp i - s.sp).toNat / 8]?.getD _ else _) = v
  rw [hoff, if_pos (Nat.mul_mod_right 8 i), Nat.mul_div_cancel_left i (by decide), hv, Option.getD_some]

theorem Holds.top (h : s.Holds (v :: vs)) : s.top = v := (holds_cons.1 h).1

theorem Holds.pop (h : s.Holds (v :: vs)) : (s.drop 1).Holds vs := (holds_cons.1 h).2

@[simp] theorem drop_zero (s : Stack) : s.drop 0 = s := by
  rw [drop, slot_zero]

theorem drop_drop (m n : Nat) (s : Stack) : (s.drop m).drop n = s.drop (m + n) := by
  rw [Stack.mk.injEq]
  exact ⟨slot_slot s.sp m n, rfl⟩

theorem Holds.drop (h : s.Holds (vs ++ ws)) (hn : vs.length = n) : (s.drop n).Holds ws := by
  intro i w hw
  rw [drop_mem, drop_sp, slot_slot]
  refine h (n + i) w ?_
  rw [List.getElem?_append_right (by omega), hn, Nat.add_sub_cancel_left]
  exact hw

theorem Holds.left (h : s.Holds (vs ++ ws)) : s.Holds vs := by
  intro i v hv
  refine h i v ?_
  obtain ⟨hi, -⟩ := List.getElem?_eq_some_iff.1 hv
  rw [List.getElem?_append_left hi]
  exact hv

end

end Stack

end Lib
