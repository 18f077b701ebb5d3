import Jaos.Lib.Cells

/-!
# Strings (`lib/string.c`)

`strlen`, `strncmp`, `strcmp` and `strncpy` on memory with bounds. `strlen` counts the NUL, the
comparisons return 1 for equal strings and 0 for others. On the first `n` bytes of two strings,
with their NULs, `strncmp` is equality (`strncmp_eq`), and `strcmp` is equality of all
(`strcmp_eq`); both stop at the first NUL. `strncpy_spec` is the copy of a part without a NUL.
-/

namespace Corelib

open Lib Cells

/-! ## The code -/

/-- `while (str[len++]);`, at most `k` times round: then the `long` overflows. -/
def strlenFrom (m : Cells) (str : Nat) : (k len : Nat) → Option Nat
  | 0, _ => none
  | k + 1, len => (m (str + len)).bind fun c =>
      if c ≠ 0 then strlenFrom m str k (len + 1) else some (len + 1)

/-- `strlen`. -/
def strlen (m : Cells) (str : Nat) : Option Nat := strlenFrom m str (2 ^ 63 - 1) 0

/-- The loop of `strncmp` from `i` on, at most `k` times round: then the `int` overflows. -/
def strncmpFrom (m : Cells) (str str2 : Nat) (n : Int) : (k i : Nat) → Option Nat
  | 0, _ => none
  | k + 1, i =>
    if i < n then
      (m (str + i)).bind fun c => (m (str2 + i)).bind fun c2 =>
        if c = 0 ∧ c2 = 0 then some 1
        else if c = 0 ∨ c2 = 0 then some 0
        else if c ≠ c2 then some 0
        else strncmpFrom m str str2 n k (i + 1)
    else some 1

/-- `strncmp`. -/
def strncmp (m : Cells) (str str2 : Nat) (n : Int) : Option Nat :=
  strncmpFrom m str str2 n (2 ^ 31) 0

/-- The loop of `strcmp` from `i` on, at most `k` times round. -/
def strcmpFrom (m : Cells) (str str2 : Nat) : (k i : Nat) → Option Nat
  | 0, _ => none
  | k + 1, i =>
    (m (str + i)).bind fun c => (m (str2 + i)).bind fun c2 =>
      if c = c2 then
        if c = 0 ∧ c2 = 0 then some 1
        else if c = 0 ∨ c2 = 0 then some 0
        else strcmpFrom m str str2 k (i + 1)
      else some 0

/-- `strcmp`. -/
def strcmp (m : Cells) (str str2 : Nat) : Option Nat := strcmpFrom m str str2 (2 ^ 31) 0

/-- The first loop of `strncpy` from `i` on, at most `k` times round, with the `i` it stops at. -/
def strncpyFrom (dest src : Nat) (n : Int) : (k i : Nat) → Cells → Option (Nat × Cells)
  | 0, _, _ => none
  | k + 1, i, m =>
    if i < n then
      (m (src + i)).bind fun c =>
        if c ≠ 0 then (m.put (dest + i) c).bind (strncpyFrom dest src n k (i + 1)) else some (i, m)
    else some (i, m)

/-- `strncpy`: the pointer it returns and the memory. -/
def strncpy (dest src : Nat) (n : Int) (m : Cells) : Option (Nat × Cells) :=
  (strncpyFrom dest src n (2 ^ 31) 0 m).bind fun r =>
    (loop (fun i m => if i + 1 < 2 ^ 31 then m.put (dest + i) 0 else none) (n.toNat - r.1) r.1
      r.2).map fun m => (dest, m)

/-! ## Reading -/

section
variable {m m' : Cells} {a b i k n : Nat} {c : UInt8} {s t : List UInt8}

theorem strlenFrom_eq (hs : m.CString (a + i) s) (hk : s.length < k) :
    strlenFrom m a k i = some (i + s.length + 1) := by
  induction s generalizing i k with
  | nil =>
    obtain ⟨k, rfl⟩ := Nat.exists_eq_succ_of_ne_zero (Nat.ne_of_gt hk)
    simp [strlenFrom, hs.nil_eq]
  | cons c s ih =>
    obtain ⟨k, rfl⟩ := Nat.exists_eq_succ_of_ne_zero (Nat.ne_of_gt (Nat.zero_lt_of_lt hk))
    obtain ⟨hc, h0, htail⟩ := hs.cons_eq
    rw [List.length_cons] at hk ⊢
    rw [strlenFrom, hc, Option.bind_some, if_pos h0, ih htail (by omega)]
    congr 1
    omega

theorem strlen_eq (hs : m.CString a s) (hl : s.length < 2 ^ 63 - 1) :
    strlen m a = some (s.length + 1) := by
  rw [strlen, strlenFrom_eq (by simpa using hs) hl, Nat.zero_add]

/-- The strings, with their NULs, are the same on the first `n` bytes. -/
def SameFirst (n : Nat) (s t : List UInt8) : Prop := (s ++ [0]).take n = (t ++ [0]).take n

instance : Decidable (SameFirst n s t) := inferInstanceAs (Decidable (_ = _))

@[simp] theorem sameFirst_zero : SameFirst 0 s t := rfl

/-- Different bytes, or a NUL against a byte. -/
theorem sameFirst_nil_nil : SameFirst (n + 1) [] [] := rfl

theorem not_sameFirst_nil_cons (h : c ≠ 0) : ¬ SameFirst (n + 1) [] (c :: t) := by
  simp [SameFirst, Ne.symm h]

theorem not_sameFirst_cons_nil (h : c ≠ 0) : ¬ SameFirst (n + 1) (c :: s) [] := by
  simp [SameFirst, h]

theorem sameFirst_cons_cons {d : UInt8} :
    SameFirst (n + 1) (c :: s) (d :: t) ↔ c = d ∧ SameFirst n s t := by simp [SameFirst]

/-- **`strncmp`** compares the first `n` bytes, the NULs included. -/
theorem strncmpFrom_eq (hs : m.CString (a + i) s) (ht : m.CString (b + i) t) (hn : n < i + k)
    (hle : i ≤ n) :
    strncmpFrom m a b n k i = some (if SameFirst (n - i) s t then 1 else 0) := by
  induction k generalizing i s t with
  | zero => omega
  | succ k ih =>
    unfold strncmpFrom
    rcases Nat.eq_or_lt_of_le hle with rfl | hlt
    · simp
    · obtain ⟨j, rfl⟩ : ∃ j, n = i + (j + 1) := ⟨n - i - 1, by omega⟩
      rw [if_pos (by omega), Nat.add_sub_cancel_left]
      cases s with
      | nil =>
        cases t with
        | nil => simp [hs.nil_eq, ht.nil_eq, sameFirst_nil_nil]
        | cons d t =>
          obtain ⟨hd, hd0, -⟩ := ht.cons_eq
          simp [hs.nil_eq, hd, hd0, not_sameFirst_nil_cons hd0]
      | cons c s =>
        obtain ⟨hc, hc0, hs'⟩ := hs.cons_eq
        cases t with
        | nil => simp [hc, hc0, ht.nil_eq, not_sameFirst_cons_nil hc0]
        | cons d t =>
          obtain ⟨hd, hd0, ht'⟩ := ht.cons_eq
          rw [hc, hd, Option.bind_some, Option.bind_some, if_neg fun h => hc0 h.1,
            if_neg fun h => h.elim hc0 hd0]
          by_cases hcd : c = d
          · have hrest := ih (i := i + 1) hs' ht' (by omega) (by omega)
            rw [if_neg fun h => h hcd, hrest, show i + (j + 1) - (i + 1) = j by omega]
            simp [sameFirst_cons_cons, hcd]
          · simp [sameFirst_cons_cons, hcd]

/-- **`strcmp`** compares all bytes. -/
theorem strcmpFrom_eq (hs : m.CString (a + i) s) (ht : m.CString (b + i) t) (hk : s.length < k) :
    strcmpFrom m a b k i = some (if s = t then 1 else 0) := by
  induction k generalizing i s t with
  | zero => omega
  | succ k ih =>
    unfold strcmpFrom
    cases s with
    | nil =>
      cases t with
      | nil => simp [hs.nil_eq, ht.nil_eq]
      | cons d t =>
        obtain ⟨hd, hd0, -⟩ := ht.cons_eq
        simp [hs.nil_eq, hd, Ne.symm hd0]
    | cons c s =>
      obtain ⟨hc, hc0, hs'⟩ := hs.cons_eq
      cases t with
      | nil => simp [hc, hc0, ht.nil_eq]
      | cons d t =>
        obtain ⟨hd, hd0, ht'⟩ := ht.cons_eq
        rw [hc, hd, Option.bind_some, Option.bind_some]
        by_cases hcd : c = d
        · rw [if_pos hcd, if_neg fun h => hc0 h.1, if_neg fun h => h.elim hc0 hd0,
            ih hs' ht' (by simp at hk; omega)]
          simp [hcd]
        · simp [hcd]

/-- With the NUL of the first string, equality of the first bytes is equality. -/
theorem sameFirst_succ_length (hs : 0 ∉ s) (ht : 0 ∉ t) :
    SameFirst (s.length + 1) s t ↔ s = t := by
  induction s generalizing t with
  | nil =>
    cases t with
    | nil => simp [sameFirst_nil_nil]
    | cons d t => simpa using not_sameFirst_nil_cons fun h : d = 0 => ht (by simp [h])
  | cons c s ih =>
    simp only [List.mem_cons, not_or] at hs
    cases t with
    | nil => simpa using not_sameFirst_cons_nil (Ne.symm hs.1)
    | cons d t =>
      simp only [List.mem_cons, not_or] at ht
      simp [sameFirst_cons_cons, ih hs.2 ht.2]

/-- Without it, the first string is a prefix of the second. -/
theorem sameFirst_length (hs : 0 ∉ s) : SameFirst s.length s t ↔ s <+: t := by
  induction s generalizing t with
  | nil => simp
  | cons c s ih =>
    simp only [List.mem_cons, not_or] at hs
    cases t with
    | nil => simpa using not_sameFirst_cons_nil (Ne.symm hs.1)
    | cons d t => simp [sameFirst_cons_cons, List.cons_prefix_cons, ih hs.2]

theorem strncmp_eq (hs : m.CString a s) (ht : m.CString b t) (hn : n < 2 ^ 31) :
    strncmp m a b n = some (if SameFirst n s t then 1 else 0) :=
  strncmpFrom_eq (by simpa using hs) (by simpa using ht) (by omega) (Nat.zero_le n)

theorem strcmp_eq (hs : m.CString a s) (ht : m.CString b t) (hl : s.length < 2 ^ 31) :
    strcmp m a b = some (if s = t then 1 else 0) :=
  strcmpFrom_eq (by simpa using hs) (by simpa using ht) hl

end

/-! ## `strncpy` -/

section
variable {m t : Cells} {dest src i k : Nat} {w : List UInt8}

/-- The first loop, on bytes that are no NULs; the first `i` have been copied. -/
theorem strncpyFrom_spec (hw : m.Holds src w) (h0 : 0 ∉ w)
    (hapart : dest + w.length ≤ src ∨ src + w.length ≤ dest) (hk : w.length < i + k)
    (hi : i ≤ w.length) (ht : Agree m t dest w.length) (hcopied : ∀ j < i, t (dest + j) = w[j]?)
    (hcells : t.Has dest w.length) :
    ∃ m', strncpyFrom dest src w.length k i t = some (w.length, m') ∧ m'.Holds dest w ∧
      Agree m m' dest w.length := by
  induction k generalizing i t with
  | zero => omega
  | succ k ih =>
    unfold strncpyFrom
    rcases Nat.lt_or_eq_of_le hi with hlt | rfl
    · have hread : t (src + i) = some w[i] := by
        rw [ht _ (by omega), hw i hlt, List.getElem?_eq_getElem hlt]
      have hne : w[i] ≠ 0 := fun h => h0 (h ▸ List.getElem_mem hlt)
      have hp := put_eq (c := w[i]) (hcells i hlt)
      obtain ⟨hnew, hother⟩ := put_spec hp
      rw [if_pos (by omega), hread, Option.bind_some, if_pos hne, hp, Option.bind_some]
      refine ih (by omega) hlt (ht.put hlt hp) (fun j hj => ?_) (hcells.put hp)
      rcases Nat.lt_succ_iff_lt_or_eq.1 hj with hj | rfl
      · rw [hother _ (by omega)]
        exact hcopied j hj
      · rw [hnew, List.getElem?_eq_getElem hlt]
    · exact ⟨t, if_neg (by omega), hcopied, ht⟩

/-- **`strncpy`** of as many bytes as there are in front of the NUL. -/
theorem strncpy_spec (hw : m.Holds src w) (h0 : 0 ∉ w) (hd : m.Has dest w.length)
    (hapart : dest + w.length ≤ src ∨ src + w.length ≤ dest) (hl : w.length < 2 ^ 31) :
    ∃ m', strncpy dest src w.length m = some (dest, m') ∧ m'.Holds dest w ∧
      Agree m m' dest w.length := by
  obtain ⟨m', hrun, hholds, hagree⟩ := strncpyFrom_spec hw h0 hapart (i := 0) (k := 2 ^ 31)
    (by omega) (Nat.zero_le _) .refl (fun j hj => absurd hj (by omega)) hd
  refine ⟨m', ?_, hholds, hagree⟩
  rw [strncpy, hrun, Option.bind_some]
  simp [loop]

end

/-! ## The comparisons agree -/

/-- **The comparisons agree** with each other and with equality, on memory that needs to hold nothing
but the two strings up to their NULs. -/
theorem comparisons_agree {m : Cells} {a b : Nat} {s t : List UInt8} (hs : m.CString a s)
    (ht : m.CString b t) (hl : s.length < 2 ^ 31 - 1) :
    ∃ r len p, strcmp m a b = some r ∧ (r = 1 ↔ s = t) ∧
      strlen m a = some len ∧ len = s.length + 1 ∧ strncmp m a b len = some r ∧
      strncmp m a b (len - 1) = some p ∧ (p = 1 ↔ s <+: t) := by
  refine ⟨if s = t then 1 else 0, s.length + 1, if s <+: t then 1 else 0, strcmp_eq hs ht (by omega),
    by simp, strlen_eq hs (by omega), rfl, ?_, ?_, by simp⟩
  · have h := strncmp_eq hs ht (n := s.length + 1) (by omega)
    simpa [sameFirst_succ_length hs.noNul ht.noNul] using h
  · rw [Int.natCast_add, Int.natCast_one, Int.add_sub_cancel, strncmp_eq hs ht (by omega)]
    simp [sameFirst_length hs.noNul]

/-- `EX` at 100 and `EXEC` at 200, and no other cell. -/
def exExec (x : Nat) : Option UInt8 :=
  if x < 100 then none
  else if x < 200 then [0x45, 0x58, 0][x - 100]?
  else [0x45, 0x58, 0x45, 0x43, 0][x - 200]?

theorem exExec_ex : Cells.CString exExec 100 [0x45, 0x58] := ⟨by unfold Holds; decide, rfl, by simp⟩

theorem exExec_exec : Cells.CString exExec 200 [0x45, 0x58, 0x45, 0x43] :=
  ⟨by unfold Holds; decide, rfl, by simp⟩

/-- The two are not equal, and the first is a prefix of the second. -/
theorem comparisons_agree_exExec : ∃ r len p, strcmp exExec 100 200 = some r ∧
    (r = 1 ↔ [0x45, 0x58] = ([0x45, 0x58, 0x45, 0x43] : List UInt8)) ∧
    strlen exExec 100 = some len ∧ len = [0x45, 0x58].length + 1 ∧
    strncmp exExec 100 200 len = some r ∧ strncmp exExec 100 200 (len - 1) = some p ∧
    (p = 1 ↔ [0x45, 0x58] <+: ([0x45, 0x58, 0x45, 0x43] : List UInt8)) :=
  comparisons_agree exExec_ex exExec_exec (by decide)

end Corelib
