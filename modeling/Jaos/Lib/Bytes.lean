import Mathlib

/-!
# Byte memory

A memory is a function from addresses to bytes. `load m a n` reads `n` bytes at `a`, little endian,
and `store m a n v` writes them. A load sees the store to its own bytes (`load_store_same`) and
ignores every store elsewhere (`load_store_ne`); `Same m m' lo hi` says that two memories agree on
`[lo, hi)`, which is all that a load inside that range looks at (`load_congr`). `byteOf i w` is byte
`i` of a word, `putByte i b w` the word with another byte there.
-/

namespace Lib

/-- Byte-addressed memory. -/
abbrev Mem := Nat → UInt8

namespace Mem

/-- One byte written. -/
def set (m : Mem) (a : Nat) (b : UInt8) : Mem := fun x => if x = a then b else m x

/-- `n` bytes at `a`, little endian. -/
def load (m : Mem) (a : Nat) : (n : Nat) → Nat
  | 0 => 0
  | n + 1 => (m a).toNat + 256 * load m (a + 1) n

/-- The low `n` bytes of `v` written at `a`, little endian. -/
def store (m : Mem) (a : Nat) : (n : Nat) → (v : Nat) → Mem
  | 0, _ => m
  | n + 1, v => store (set m a (UInt8.ofNat v)) (a + 1) n (v / 256)

/-- The memories agree on `[lo, hi)`. -/
def Same (m m' : Mem) (lo hi : Nat) : Prop := ∀ x, lo ≤ x → x < hi → m' x = m x

theorem Same.refl (m : Mem) (lo hi : Nat) : Same m m lo hi := fun _ _ _ => rfl

theorem Same.trans {m m' m'' : Mem} {lo hi : Nat} (h : Same m m' lo hi) (h' : Same m' m'' lo hi) :
    Same m m'' lo hi := fun x h1 h2 => (h' x h1 h2).trans (h x h1 h2)

theorem Same.mono {m m' : Mem} {lo hi lo' hi' : Nat} (h : Same m m' lo hi) (hl : lo ≤ lo')
    (hh : hi' ≤ hi) : Same m m' lo' hi' := fun x h1 h2 => h x (by omega) (by omega)

theorem load_lt (m : Mem) (a n : Nat) : load m a n < 256 ^ n := by
  induction n generalizing a with
  | zero => simp [load]
  | succ n ih =>
    have h1 := (m a).toNat_lt
    have h2 := ih (a + 1)
    rw [load, Nat.pow_succ]
    omega

/-- The same bytes, perhaps at another address. -/
theorem load_shift {m m' : Mem} {a b n : Nat} (h : ∀ k, k < n → m' (b + k) = m (a + k)) :
    load m' b n = load m a n := by
  induction n generalizing a b with
  | zero => rfl
  | succ n ih =>
    have h0 := h 0 (by omega)
    rw [Nat.add_zero, Nat.add_zero] at h0
    rw [load, load, h0, ih fun k hk => ?_]
    rw [Nat.add_assoc, Nat.add_assoc, Nat.add_comm 1 k]
    exact h (k + 1) (by omega)

theorem load_congr {m m' : Mem} {a n : Nat} (h : Same m m' a (a + n)) : load m' a n = load m a n :=
  load_shift fun k hk => h (a + k) (by omega) (by omega)

theorem store_ne (m : Mem) {a n x : Nat} (v : Nat) (h : x < a ∨ a + n ≤ x) : store m a n v x = m x := by
  induction n generalizing m a v with
  | zero => rfl
  | succ n ih =>
    rw [store, ih _ _ (by omega), set, if_neg (by omega)]

/-- A byte after a store depends on the byte before only. -/
theorem store_congr {m m' : Mem} {x : Nat} (a n v : Nat) (h : m x = m' x) :
    store m a n v x = store m' a n v x := by
  induction n generalizing m m' a v with
  | zero => exact h
  | succ n ih =>
    refine ih _ _ ?_
    unfold set
    split
    · rfl
    · exact h

theorem same_store (m : Mem) {a n lo hi : Nat} (v : Nat) (h : hi ≤ a ∨ a + n ≤ lo) :
    Same m (store m a n v) lo hi := fun _ _ _ => store_ne m v (by omega)

theorem load_store_ne (m : Mem) {a n b k : Nat} (v : Nat) (h : b + k ≤ a ∨ a + n ≤ b) :
    load (store m a n v) b k = load m b k := load_congr (same_store m v h)

theorem load_store_same (m : Mem) (a n v : Nat) : load (store m a n v) a n = v % 256 ^ n := by
  induction n generalizing m a v with
  | zero => simp [load, Nat.mod_one]
  | succ n ih =>
    rw [store, load, ih, store_ne _ _ (by omega), set, if_pos rfl, UInt8.toNat_ofNat',
      show (2 : Nat) ^ 8 = 256 from rfl, Nat.pow_succ', Nat.mod_mul]

end Mem

/-! ## The bytes of a word -/

/-- Byte `i` of `w`, little endian. -/
def byteOf (i w : Nat) : UInt8 := UInt8.ofNat (w / 256 ^ i)

/-- `w` with the byte `i` replaced by `b`. -/
def putByte (i : Nat) (b : UInt8) (w : Nat) : Nat :=
  (w / 256 ^ (i + 1) * 256 + b.toNat) * 256 ^ i + w % 256 ^ i

section
variable {i j n w w' : Nat} {b : UInt8}

theorem byteOf_congr (h : w / 256 ^ i % 256 = w' / 256 ^ i % 256) : byteOf i w = byteOf i w' := by
  unfold byteOf
  rw [← UInt8.toNat_inj, UInt8.toNat_ofNat', UInt8.toNat_ofNat']
  exact h

theorem putByte_div : putByte i b w / 256 ^ i = w / 256 ^ (i + 1) * 256 + b.toNat := by
  have hpos : 0 < 256 ^ i := Nat.pow_pos (by decide)
  rw [putByte, Nat.add_comm, Nat.add_mul_div_right _ _ hpos, Nat.div_eq_of_lt (Nat.mod_lt _ hpos),
    Nat.zero_add]

theorem putByte_mod : putByte i b w % 256 ^ i = w % 256 ^ i := by
  rw [putByte, Nat.add_comm, Nat.add_mul_mod_self_right, Nat.mod_mod]

@[simp] theorem byteOf_putByte : byteOf i (putByte i b w) = b := by
  have hb := b.toNat_lt
  unfold byteOf
  rw [putByte_div, ← UInt8.toNat_inj, UInt8.toNat_ofNat']
  omega

/-- The bytes below `n` are those of the rest of a division by `256 ^ n`. -/
theorem div_mod_byte (h : j < n) : w % 256 ^ n / 256 ^ j % 256 = w / 256 ^ j % 256 := by
  obtain ⟨k, rfl⟩ : ∃ k, n = j + (k + 1) := ⟨n - j - 1, by omega⟩
  rw [Nat.pow_add, Nat.mod_mul_right_div_self]
  exact Nat.mod_mod_of_dvd _ ⟨256 ^ k, Nat.pow_succ'⟩

theorem byteOf_putByte_ne (h : j ≠ i) : byteOf j (putByte i b w) = byteOf j w := by
  refine byteOf_congr ?_
  rcases Nat.lt_or_gt_of_ne h with hlt | hgt
  · rw [← div_mod_byte hlt, putByte_mod, div_mod_byte hlt]
  · obtain ⟨k, rfl⟩ : ∃ k, j = i + (k + 1) := ⟨j - i - 1, by omega⟩
    have hb := b.toNat_lt
    have hrest : w / 256 ^ (i + 1) = w / 256 ^ i / 256 := by
      rw [Nat.pow_succ, Nat.div_div_eq_div_mul]
    have hhead : (w / 256 ^ i / 256 * 256 + b.toNat) / 256 = w / 256 ^ i / 256 := by omega
    rw [Nat.pow_add, ← Nat.div_div_eq_div_mul, ← Nat.div_div_eq_div_mul, putByte_div, hrest,
      Nat.pow_succ', ← Nat.div_div_eq_div_mul, ← Nat.div_div_eq_div_mul, hhead]

theorem putByte_lt (hi : i < n) (hw : w < 256 ^ n) : putByte i b w < 256 ^ n := by
  obtain ⟨k, rfl⟩ : ∃ k, n = i + (k + 1) := ⟨n - i - 1, by omega⟩
  have hb := b.toNat_lt
  have hpos : 0 < 256 ^ i := Nat.pow_pos (by decide)
  have hhead : w / 256 ^ (i + 1) < 256 ^ k := by
    rw [Nat.div_lt_iff_lt_mul (Nat.pow_pos (by decide)), ← Nat.pow_add]
    rwa [show k + (i + 1) = i + (k + 1) by omega]
  rw [Nat.pow_add, Nat.mul_comm, ← Nat.div_lt_iff_lt_mul hpos, putByte_div,
    @Nat.pow_succ 256 k]
  omega

end

end Lib
