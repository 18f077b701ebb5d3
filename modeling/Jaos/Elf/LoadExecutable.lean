import Jaos.Elf.Elf64
import Jaos.Memory.AddressSpace
import Jaos.Memory.UserMemory

/-!
# Loading a program (`kernel/elf.c`)

`load_executable` from the call of `elf_check` on: the file has been found and read, to a block of the
kernel heap at `buffer`. The buffer is read where it lies, in the memory of the heap, also after it was
freed; the segments go to the memory of the current address space. Below `0xC0000000` there is no page
of the heap, so the copies leave the buffer alone.
-/

namespace Program

open Lib Paging Kheap Elf64

/-- The file in the buffer, as a memory that starts with it. -/
def image (buffer : Addr) (h : Heap) : Mem := fun a => h.mem (add64 buffer a)

/-- `alloc_page` and `memcpy` in the current address space, from the file in the buffer. -/
def machine (file : Mem) : Loader Machine where
  allocPage := allocPage
  memcpy dest offset n := memcpy dest (fun i => file (add64 offset i)) n

/-- The body of the loop of `load_executable` on the program header at `ph`. -/
def loadSegment (file : Mem) : (ph : Nat) → Machine → Option (Bool × Machine) :=
  Elf64.loadSegment (machine file) file

/-- The loop on `k` headers from number `i` on. -/
def loadSegments (file : Mem) : (k i : Nat) → Machine → Option (Bool × Machine) :=
  Elf64.loadSegments (machine file) file

section
variable {file : Mem} {ph : Nat} {m : Machine}

theorem loadSegment_skip (h : pType file ph ≠ 1) : loadSegment file ph m = some (true, m) := if_neg h

theorem loadSegment_load (h : pType file ph = 1) : loadSegment file ph m =
    (allocPage (pVaddr file ph) (pMemsz file ph / 4096 + 1) m).bind fun r =>
      if r.1 = 0 then some (false, r.2)
      else
        (memcpy (pVaddr file ph) (fun i => file (add64 (pOffset file ph) i)) (pFilesz file ph) r.2).map
          fun m => (true, m) := by
  rw [loadSegment, Elf64.loadSegment]
  rw [if_pos h]
  dsimp only [machine]

theorem loadSegments_succ {k i : Nat} : loadSegments file (k + 1) i m =
    (loadSegment file (phdr file i) m).bind fun r =>
      if r.1 then loadSegments file k (i + 1) r.2 else some (false, r.2) := rfl

end

/-- `load_executable` once the file is in the buffer: the entry point, or 0. -/
def loadExecutable (buffer : Addr) (h : Heap) (m : Machine) : Option (Nat × Heap × Machine) :=
  let file := image buffer h
  if elfCheck file ≠ 0 then some (0, h, m)
  else
    (loadSegments file (ePhnum file) 0 m).map fun r =>
      if r.1 then
        let f := free kernelPages buffer h r.2
        (eEntry (image buffer f.1), f.1, f.2)
      else (0, h, r.2)

end Program
