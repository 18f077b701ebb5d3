import Jaos.Lib.Bytes
import Jaos.Lib.Word

/-!
# ELF images (`kernel/elf.h`, `kernel/elf.c`, `boot/loadelf.asm`)

The header fields that the two loaders read, `elf_check`, and the loops of the loaders:
`load_executable` with C's array indexing, `loadelf` with a pointer and a counter in registers. The loop of
`load_executable` is that of `loadSegments`, for any functions `alloc_page` and `memcpy` (`Loader`). With
`recorder` they write down what is copied, which is also all that `loadelf` does. An image is a memory
that starts at the file's first byte; behind the file is whatever memory holds there. It stays as it is
while it is loaded: a segment that overwrites the buffer it comes from is left out.
-/

namespace Elf64

open Lib

/-! ## `Elf64_Ehdr` -/

def eType (m : Mem) : Nat := m.load 0x10 2
def eMachine (m : Mem) : Nat := m.load 0x12 2
def eVersion (m : Mem) : Nat := m.load 0x14 4
def eEntry (m : Mem) : Nat := m.load 0x18 8
def ePhoff (m : Mem) : Nat := m.load 0x20 8
def ePhentsize (m : Mem) : Nat := m.load 0x36 2
def ePhnum (m : Mem) : Nat := m.load 0x38 2

/-- `elf_check`. -/
def elfCheck (m : Mem) : Nat :=
  if m 0 ≠ 0x7F then 1
  else if m 1 ≠ 0x45 then 1
  else if m 2 ≠ 0x4C then 1
  else if m 3 ≠ 0x46 then 1
  else if eType m ≠ 2 then 1
  else if eMachine m ≠ 62 then 1
  else if eVersion m = 0 then 1
  else 0

/-! ## `Elf64_Phdr` -/

/-- `sizeof(Elf64_Phdr)`. -/
def sizeofPhdr : Nat := 56

/-- The field of `n` bytes at `offset` in the program header at `ph`. -/
def field (m : Mem) (ph offset n : Nat) : Nat := m.load (add64 ph offset) n

def pType (m : Mem) (ph : Nat) : Nat := field m ph 0x00 4
def pOffset (m : Mem) (ph : Nat) : Nat := field m ph 0x08 8
def pVaddr (m : Mem) (ph : Nat) : Nat := field m ph 0x10 8
def pFilesz (m : Mem) (ph : Nat) : Nat := field m ph 0x20 8
def pMemsz (m : Mem) (ph : Nat) : Nat := field m ph 0x28 8

/-! ## The kernel -/

/-- The functions that `load_executable` calls for a segment: `alloc_page` with an address and a number of
pages, `memcpy` with the destination, the offset in the file and the number of bytes. -/
structure Loader (σ : Type) where
  allocPage : (virtual size : Nat) → σ → Option (Nat × σ)
  memcpy : (dest offset n : Nat) → σ → Option σ

/-- `ph + i`, as an offset in the file. -/
def phdr (m : Mem) (i : Nat) : Nat := add64 (ePhoff m) (sizeofPhdr * i)

section
variable {σ : Type} (K : Loader σ) (file : Mem)

/-- The body of the loop of `load_executable` on the program header at `ph`; false for `return 0`. -/
def loadSegment (ph : Nat) (m : σ) : Option (Bool × σ) :=
  if pType file ph = 1 then
    (K.allocPage (pVaddr file ph) (pMemsz file ph / 4096 + 1) m).bind fun r =>
      if r.1 = 0 then some (false, r.2)
      else (K.memcpy (pVaddr file ph) (pOffset file ph) (pFilesz file ph) r.2).map fun m => (true, m)
  else some (true, m)

/-- The loop on `k` headers from number `i` on. -/
def loadSegments : (k i : Nat) → σ → Option (Bool × σ)
  | 0, _, m => some (true, m)
  | k + 1, i, m => (loadSegment K file (phdr file i) m).bind fun r =>
      if r.1 then loadSegments k (i + 1) r.2 else some (false, r.2)

end

/-- `length` bytes of the file from `offset` on go to `destination`. -/
structure Copy where
  destination : Nat
  offset : Nat
  length : Nat
  deriving DecidableEq

/-- Where no allocation fails, `alloc_page` returns the address it was given. `memcpy` goes by a signed
size, so sizes from `2 ^ 63` on copy nothing; between `2 ^ 31` and these its `int` counter overflows, and the
call has no meaning. -/
def recorder : Loader (List Copy) where
  allocPage virtual _ l := some (virtual, l)
  memcpy dest offset n l :=
    if n < 2 ^ 31 then some (l ++ [⟨dest, offset, n⟩])
    else if n < 2 ^ 63 then none
    else some (l ++ [⟨dest, offset, 0⟩])

/-- The copies of `load_executable`, when no allocation fails. -/
def loadExecutable (m : Mem) : Option (List Copy) :=
  (loadSegments recorder m (ePhnum m) 0 []).map Prod.snd

/-! ## The boot loader -/

/-- What `rep movsb` copies for the program header at `ph`. -/
def copyOf (m : Mem) (ph : Nat) : Option Copy :=
  if pType m ph = 1 then some ⟨pVaddr m ph, pOffset m ph, pFilesz m ph⟩ else none

/-- `@loop` with the counter and the pointer in their registers; `loop` decrements before it tests. -/
def loadelfFrom (m : Mem) : (fuel rcx rbx : Nat) → Option (List Copy)
  | 0, _, _ => none
  | fuel + 1, rcx, rbx =>
    let copies := (copyOf m rbx).toList
    let rbx := add64 rbx 0x30
    let rcx := sub64 rcx 1
    if rcx ≠ 0 then (loadelfFrom m fuel rcx rbx).map (copies ++ ·) else some copies

/-- `loadelf`. -/
def loadelf (m : Mem) (fuel : Nat) : Option (List Copy) := loadelfFrom m fuel (ePhnum m) (ePhoff m)

end Elf64
