import Jaos.Lib.Bytes
import Jaos.Memory.Paging

/-!
# Programs in memory (`lib/stdlib.c`)

The bytes of physical memory, which the paging model keeps as entries: `Entry.word` is the number an
entry stands for and `Entry.ofWord` the way back. `loadByte` and `storeByte` go through the tables of
the current address space, `memcpy` copies into it.
-/

namespace Paging

open Lib

namespace Entry

/-- The 64 bits of an entry: `present`, `rw` and `user` at the bottom, the frame from bit 12 on. -/
def word (e : Entry) : Nat :=
  e.present.toNat + 2 * e.rw.toNat + 4 * e.user.toNat + 8 * (e.rest.toNat % 2 ^ 9) +
    2 ^ 12 * e.frame.toNat + 2 ^ 52 * (e.rest.toNat / 2 ^ 9)

def ofWord (n : Nat) : Entry where
  present := decide (n % 2 = 1)
  rw := decide (n / 2 % 2 = 1)
  user := decide (n / 4 % 2 = 1)
  frame := BitVec.ofNat 40 (n / 2 ^ 12)
  rest := BitVec.ofNat 21 (n / 8 % 2 ^ 9 + 2 ^ 9 * (n / 2 ^ 52))

def byte (i : Nat) (e : Entry) : UInt8 := byteOf i e.word

def setByte (i : Nat) (b : UInt8) (e : Entry) : Entry := ofWord (putByte i b e.word)

theorem word_lt (e : Entry) : e.word < 2 ^ 64 := by
  have hf := e.frame.isLt
  have hr := e.rest.isLt
  have h1 := e.present.toNat_le
  have h2 := e.rw.toNat_le
  have h3 := e.user.toNat_le
  unfold word
  omega

theorem toNat_decide_mod (n : Nat) : (decide (n % 2 = 1)).toNat = n % 2 := by
  rcases Nat.mod_two_eq_zero_or_one n with h | h <;> rw [h] <;> rfl

@[simp] theorem word_ofWord {n : Nat} (h : n < 2 ^ 64) : (ofWord n).word = n := by
  unfold word ofWord
  dsimp only
  rw [toNat_decide_mod, toNat_decide_mod, toNat_decide_mod, BitVec.toNat_ofNat, BitVec.toNat_ofNat]
  omega

section
variable {i j : Nat} {b : UInt8} {e : Entry}

theorem word_setByte (hi : i < 8) : (setByte i b e).word = putByte i b e.word :=
  word_ofWord (putByte_lt hi e.word_lt)

@[simp] theorem byte_setByte (hi : i < 8) : (setByte i b e).byte i = b := by
  rw [byte, word_setByte hi, byteOf_putByte]

theorem byte_setByte_ne (hi : i < 8) (h : j ≠ i) : (setByte i b e).byte j = e.byte j := by
  rw [byte, word_setByte hi, byteOf_putByte_ne h, byte]

end

end Entry

/-! ## Virtual memory, byte by byte -/

def loadByte (a : Addr) (m : Machine) : Option UInt8 := (load a m).map (Entry.byte (a % 8))

def storeByte (a : Addr) (b : UInt8) (m : Machine) : Option Machine :=
  modify a (Entry.setByte (a % 8) b) m

/-- The byte at `a` as the processor finds it. -/
def hardwareByte (a : Addr) (m : Machine) : Option UInt8 :=
  (hardware m.phys m.cr3 a.indices).map fun n => (m.phys n (a.offset / 8)).byte (a % 8)

/-- `memcpy`, from bytes that are not among those written. `size_t` is signed here, so sizes from
`2 ^ 63` on are negative; between the two the `int` counter overflows, and the call has no meaning. -/
def memcpy (dest : Addr) (src : Nat → UInt8) (n : Nat) (m : Machine) : Option Machine :=
  if n < 2 ^ 31 then loop (fun i => storeByte (add64 dest i) (src i)) n 0 m
  else if n < 2 ^ 63 then none
  else some m

end Paging
