import Jaos.Lib.Bytes
import Jaos.Lib.Cells

/-!
# Blocks of memory (`lib/stdlib.c`)

`memset` and `memmove`, with their `int` counters; `size_t` is a `long`. `memmove` goes up where the
destination is below the source and down where it is above. Either way the byte it reads next is none
that it has written (`Moved.up`, `Moved.down`), so the ranges may overlap (`memmove_copies`).
-/

namespace Corelib

open Lib Cells

/-! ## The code -/

/-- `dest[i] = src[i]`. -/
def copyByte (dest src i : Nat) (m : Cells) : Option Cells := (m (src + i)).bind (m.put (dest + i))

/-- The value of a `long` assigned to an `int`. -/
def toInt (n : Int) : Int := n.bmod (2 ^ 32)

/-- `memset`. -/
def memset (dest : Nat) (c : UInt8) (n : Int) (m : Cells) : Option Cells :=
  intLoop (fun i m => m.put (dest + i) c) n m

/-- `for (; i >= 0; i--)` of `memmove` from `i = k - 1` on. -/
def memmoveDown (dest src : Nat) : (k : Nat) → Cells → Option Cells
  | 0, m => some m
  | k + 1, m => (copyByte dest src k m).bind (memmoveDown dest src k)

/-- `memmove`: the pointer it returns and the memory. -/
def memmove (dest src : Nat) (n : Int) (m : Cells) : Option (Nat × Cells) :=
  let moved :=
    if dest < src then intLoop (copyByte dest src) n m
    else if src < dest then memmoveDown dest src (toInt (n - 1) + 1).toNat m
    else some m
  moved.map fun m => (dest, m)

theorem toInt_eq {n : Int} (h1 : -2 ^ 31 ≤ n) (h2 : n < 2 ^ 31) : toInt n = n := by
  unfold toInt
  exact Int.bmod_eq_of_le (by omega) (by omega)

/-! ## `memset` -/

section
variable {m m' : Cells} {dest src lo hi n : Nat}

theorem memset_spec {c : UInt8} (hn : n < 2 ^ 31) (hm : m.Has dest n) :
    ∃ m', memset dest c n m = some m' ∧ (∀ k < n, m' (dest + k) = some c) ∧ Agree m m' dest n := by
  have step : ∀ (i : Nat) (t : Cells), (i : Int) < n →
      ((∀ k < i, t (dest + k) = some c) ∧ Agree m t dest n ∧ t.Has dest n) →
      ∃ t', t.put (dest + i) c = some t' ∧
        ((∀ k < i + 1, t' (dest + k) = some c) ∧ Agree m t' dest n ∧ t'.Has dest n) := by
    intro i t hi ⟨hset, hagree, ht⟩
    have hp := put_eq (c := c) (ht i (by omega))
    obtain ⟨hi', hother⟩ := put_spec hp
    refine ⟨_, hp, fun k hk => ?_, hagree.put (by omega) hp, ht.put hp⟩
    rcases Nat.lt_succ_iff_lt_or_eq.1 hk with hlt | rfl
    · rw [hother _ (by omega)]
      exact hset k hlt
    · exact hi'
  obtain ⟨m', hrun, hset, hagree, -⟩ := intLoop_total (s := m) (by omega) step
    ⟨fun _ hk => absurd hk (by omega), .refl, hm⟩
  exact ⟨m', hrun, by simpa using hset, hagree⟩

/-! ## `memmove` -/

/-- The bytes from `lo` to `hi` have been copied, and nothing else has changed. -/
structure Moved (m m' : Cells) (dest src lo hi : Nat) : Prop where
  copied : ∀ k, lo ≤ k → k < hi → m' (dest + k) = m (src + k)
  frame : ∀ x, x < dest + lo ∨ dest + hi ≤ x → m' x = m x

theorem Moved.refl : Moved m m dest src n n := ⟨fun k h1 h2 => absurd h1 (by omega), fun _ _ => rfl⟩

/-- A byte outside the part that was copied goes to its place. -/
theorem Moved.byte {i : Nat} (h : Moved m m' dest src lo hi) (hs : (m (src + i)).isSome)
    (hd : (m (dest + i)).isSome) (hout : i < lo ∨ hi ≤ i)
    (hread : src + i < dest + lo ∨ dest + hi ≤ src + i) :
    ∃ m'', copyByte dest src i m' = some m'' ∧ m'' (dest + i) = m (src + i) ∧
      ∀ x, x ≠ dest + i → m'' x = m' x := by
  obtain ⟨c, hc⟩ := Option.isSome_iff_exists.1 hs
  have hp := put_eq (m := m') (a := dest + i) (c := c) (by rw [h.frame _ (by omega)]; exact hd)
  obtain ⟨h1, h2⟩ := put_spec hp
  refine ⟨_, ?_, by rw [h1, hc], h2⟩
  rw [copyByte, h.frame _ hread, hc]
  exact hp

/-- The step upwards, with the destination below the source. -/
theorem Moved.up (h : Moved m m' dest src lo hi) (hlt : dest < src) (hle : lo ≤ hi)
    (hs : (m (src + hi)).isSome) (hd : (m (dest + hi)).isSome) :
    ∃ m'', copyByte dest src hi m' = some m'' ∧ Moved m m'' dest src lo (hi + 1) := by
  obtain ⟨m'', hrun, hnew, hother⟩ := h.byte hs hd (by omega) (by omega)
  refine ⟨m'', hrun, fun k h1 h2 => ?_, fun x hx => ?_⟩
  · rcases Nat.lt_succ_iff_lt_or_eq.1 h2 with hk | rfl
    · rw [hother _ (by omega)]
      exact h.copied k h1 hk
    · exact hnew
  · rw [hother _ (by omega)]
    exact h.frame x (by omega)

/-- The step downwards, with the destination above the source. -/
theorem Moved.down (h : Moved m m' dest src (lo + 1) hi) (hlt : src < dest) (hle : lo < hi)
    (hs : (m (src + lo)).isSome) (hd : (m (dest + lo)).isSome) :
    ∃ m'', copyByte dest src lo m' = some m'' ∧ Moved m m'' dest src lo hi := by
  obtain ⟨m'', hrun, hnew, hother⟩ := h.byte hs hd (by omega) (by omega)
  refine ⟨m'', hrun, fun k h1 h2 => ?_, fun x hx => ?_⟩
  · rcases Nat.eq_or_lt_of_le h1 with rfl | hk
    · exact hnew
    · rw [hother _ (by omega)]
      exact h.copied k hk h2
  · rw [hother _ (by omega)]
    exact h.frame x (by omega)

theorem memmoveDown_spec {k : Nat} (h : Moved m m' dest src k n) (hlt : src < dest) (hk : k ≤ n)
    (hs : m.Has src n) (hd : m.Has dest n) :
    ∃ m'', memmoveDown dest src k m' = some m'' ∧ Moved m m'' dest src 0 n := by
  induction k generalizing m' with
  | zero => exact ⟨m', rfl, h⟩
  | succ k ih =>
    obtain ⟨t, ht, hmoved⟩ := h.down hlt hk (hs k hk) (hd k hk)
    obtain ⟨m'', hrun, hend⟩ := ih hmoved (by omega)
    exact ⟨m'', by rw [memmoveDown, ht, Option.bind_some, hrun], hend⟩

/-- The copy, where both ranges may be accessed. -/
theorem memmove_spec (hn : n < 2 ^ 31) (hs : m.Has src n) (hd : m.Has dest n) :
    ∃ m', memmove dest src n m = some (dest, m') ∧ Moved m m' dest src 0 n := by
  unfold memmove
  rcases Nat.lt_trichotomy dest src with hlt | rfl | hgt
  · have step : ∀ (i : Nat) (t : Cells), (i : Int) < n → Moved m t dest src 0 i →
        ∃ t', copyByte dest src i t = some t' ∧ Moved m t' dest src 0 (i + 1) := fun i t hi ht =>
      ht.up hlt (Nat.zero_le i) (hs i (by omega)) (hd i (by omega))
    obtain ⟨m', hrun, hmoved⟩ := intLoop_total (s := m) (by omega) step .refl
    refine ⟨m', ?_, by simpa using hmoved⟩
    simp [hlt, hrun]
  · exact ⟨m, by simp, fun _ _ _ => rfl, fun _ _ => rfl⟩
  · obtain ⟨m', hrun, hmoved⟩ := memmoveDown_spec (Moved.refl : Moved m m dest src n n) hgt (Nat.le_refl n) hs hd
    have hcount : (toInt ((n : Int) - 1) + 1).toNat = n := by
      rw [toInt_eq (by omega) (by omega)]
      omega
    refine ⟨m', ?_, hmoved⟩
    simp [Nat.lt_asymm hgt, hgt, hcount, hrun]

end

/-- **`memmove` copies as if at once**: whatever the memory and wherever the ranges lie, every byte of
the destination is what the source held before, and no other byte changes. -/
theorem memmove_copies (m : Mem) (dest src n : Nat) (hn : n < 2 ^ 31) :
    ∃ m' : Mem, memmove dest src n (fun a => some (m a)) = some (dest, fun a => some (m' a)) ∧
      (∀ k < n, m' (dest + k) = m (src + k)) ∧ ∀ x, x < dest ∨ dest + n ≤ x → m' x = m x := by
  obtain ⟨t, hrun, hmoved⟩ : ∃ t, memmove dest src n (fun a => some (m a)) = some (dest, t) ∧
      Moved (fun a => some (m a)) t dest src 0 n :=
    memmove_spec hn (fun _ _ => rfl) fun _ _ => rfl
  have hcopied : ∀ k < n, t (dest + k) = some (m (src + k)) := fun k hk =>
    hmoved.copied k (Nat.zero_le k) hk
  have hframe : ∀ x, x < dest ∨ dest + n ≤ x → t x = some (m x) := hmoved.frame
  have hall : ∀ x, (t x).isSome := by
    intro x
    by_cases hx : x < dest ∨ dest + n ≤ x
    · simp [hframe x hx]
    · have := hcopied (x - dest) (by omega)
      rw [Nat.add_sub_cancel' (by omega)] at this
      simp [this]
  refine ⟨fun a => (t a).get (hall a), ?_, fun k hk => ?_, fun x hx => ?_⟩
  · simp [hrun]
  · simp [hcopied k hk]
  · simp [hframe x hx]

/-- Three bytes moved up by one, over two of themselves. -/
theorem memmove_copies_overlap : ∃ m' : Mem,
    memmove 101 100 3 (fun a => some (UInt8.ofNat a)) = some (101, fun a => some (m' a)) ∧
      (∀ k < 3, m' (101 + k) = UInt8.ofNat (100 + k)) ∧
      ∀ x, x < 101 ∨ 101 + 3 ≤ x → m' x = UInt8.ofNat x :=
  memmove_copies UInt8.ofNat 101 100 3 (by decide)

end Corelib
