import Jaos.Lib.Bitmap
import Jaos.Lib.Scan
import Jaos.Lib.Word

/-!
# The frame allocator (`kernel/memman.c`)

The bitmap of physical blocks, `_mem_memory_map`, with its two counters, the functions on it and the
part of `memman_init` that sets it up from the BIOS memory map. A block is a frame of 4096 bytes,
known by its number; the null pointer is address 0.

Words of the bitmap past the last one that `memman_init` fills are whatever memory holds there.
-/

namespace Memman

open Lib

abbrev memBlockSize : Nat := 4096
abbrev memBlocksPerByte : Nat := 8
abbrev memMapWordSize : Nat := 64

/-- `_kernel_start`, set by the linker script. -/
abbrev kernelStart : Nat := 0xC0000000

/-- `_mem_used_blocks`, `_mem_max_blocks` and the words at `_mem_memory_map`. -/
structure Frames where
  usedBlocks : Nat
  maxBlocks : Nat
  memoryMap : Words

/-! ## The bitmap -/

def mmapSet (bit : Nat) (f : Frames) : Frames := { f with memoryMap := f.memoryMap.set bit }

def mmapUnset (bit : Nat) (f : Frames) : Frames := { f with memoryMap := f.memoryMap.unset bit }

/-- `mmap_test`, as the condition it is used for. -/
def mmapTest (bit : Nat) (f : Frames) : Prop := f.memoryMap.test bit ≠ 0#64

instance (bit : Nat) (f : Frames) : Decidable (mmapTest bit f) := by
  unfold mmapTest
  infer_instance

/-- Bit `j` of word `i` is clear. -/
def clearAt (i j : Nat) (f : Frames) : Prop := f.memoryMap i &&& Words.mask j = 0#64

instance (i j : Nat) (f : Frames) : Decidable (clearAt i j f) := by
  unfold clearAt
  infer_instance

/-- The outer loop of `mmap_first_free` from word `i` on, `k` words. -/
def firstFreeFrom (f : Frames) : (k i : Nat) → Nat
  | 0, _ => 0
  | k + 1, i =>
    if f.memoryMap i ≠ BitVec.allOnes 64 then
      let j := scan (fun j => !decide (clearAt i j f)) 64 0
      if j < 64 then i * 64 + j else firstFreeFrom f k (i + 1)
    else firstFreeFrom f k (i + 1)

/-- `mmap_first_free`. -/
def mmapFirstFree (f : Frames) : Nat := firstFreeFrom f (f.maxBlocks / 64) 0

/-- The head of the outer loop of `mmap_first_free_zone` at word `i`; `inner` runs the inner loop
from a bit of a word, and past bit 63 it goes on with the next word. -/
def zoneOuter (f : Frames) (inner : (i j : Nat) → Option Nat) (i : Nat) : Option Nat :=
  if i < f.maxBlocks / 64 then
    if f.memoryMap i ≠ BitVec.allOnes 64 then inner i 0 else inner i 64
  else some 0

/-- The inner loop of `mmap_first_free_zone` at bit `j` of word `i`. A zone that is too small moves
both loop variables to the bit that ends it. -/
def zoneInner (f : Frames) (size : Nat) : (fuel i j : Nat) → Option Nat
  | 0, _, _ => none
  | fuel + 1, i, j =>
    if j < 64 then
      if clearAt i j f then
        let count := scan (fun c => !decide (mmapTest (i * 64 + j + c) f)) size 0
        if count = size then some (i * 64 + j)
        else
          let stop := i * 64 + j + count
          zoneInner f size fuel (stop / 64) (stop % 64 + 1)
      else zoneInner f size fuel i (j + 1)
    else zoneOuter f (zoneInner f size fuel) (i + 1)

/-- Enough fuel for every step of the two loops. -/
def zoneFuel (f : Frames) : Nat := 65 * (f.maxBlocks / 64 + 2)

/-- `mmap_first_free_zone`; `none` if the loops do not end. -/
def mmapFirstFreeZone (size : Nat) (f : Frames) : Option Nat :=
  if size = 0 then some 0
  else if size = 1 then some (mmapFirstFree f)
  else zoneOuter f (zoneInner f size (zoneFuel f)) 0

/-! ## Allocating and freeing -/

def memFreeBlockCount (f : Frames) : Nat := sub64 f.maxBlocks f.usedBlocks

/-- `mem_alloc_block`: the address of the frame. -/
def memAllocBlock (f : Frames) : Nat × Frames :=
  if memFreeBlockCount f = 0 then (0, f)
  else
    let frame := mmapFirstFree f
    if frame = 0 then (0, f)
    else
      let f := mmapSet frame f
      (frame * memBlockSize, { f with usedBlocks := add64 f.usedBlocks 1 })

/-- `mem_free_block`. -/
def memFreeBlock (addr : Nat) (f : Frames) : Frames :=
  let f := mmapUnset (addr / memBlockSize) f
  { f with usedBlocks := sub64 f.usedBlocks 1 }

/-- `for (i = frame; i < frame + size; i++) mmap_set(i)`. -/
def setRange : (size frame : Nat) → Frames → Frames
  | 0, _, f => f
  | size + 1, frame, f => setRange size (frame + 1) (mmapSet frame f)

/-- `for (i = frame; i < frame + size; i++) mmap_unset(i)`. -/
def unsetRange : (size frame : Nat) → Frames → Frames
  | 0, _, f => f
  | size + 1, frame, f => unsetRange size (frame + 1) (mmapUnset frame f)

/-- `mem_alloc_blocks`. -/
def memAllocBlocks (size : Nat) (f : Frames) : Option (Nat × Frames) :=
  if memFreeBlockCount f < size then some (0, f)
  else
    (mmapFirstFreeZone size f).map fun frame =>
      if frame = 0 then (0, f)
      else
        let f := setRange size frame f
        (frame * memBlockSize, { f with usedBlocks := add64 f.usedBlocks size })

/-- `mem_free_blocks`. -/
def memFreeBlocks (addr size : Nat) (f : Frames) : Frames :=
  let f := unsetRange size (addr / memBlockSize) f
  { f with usedBlocks := sub64 f.usedBlocks size }

/-! ## Initialisation -/

/-- An entry of the BIOS memory map. -/
structure MemoryRegion where
  start : Nat
  size : Nat
  type : Nat

/-- The loop of `mem_init_region`. A block that is free already is tested again and again: `align`
moves on only when a bit is cleared. -/
def initRegionFrom : (blocks align : Nat) → Frames → Frames
  | 0, _, f => f
  | blocks + 1, align, f =>
    if mmapTest align f then
      let f := mmapUnset align f
      initRegionFrom blocks (align + 1) { f with usedBlocks := sub64 f.usedBlocks 1 }
    else initRegionFrom blocks align f

/-- `mem_init_region`. -/
def memInitRegion (base size : Nat) (f : Frames) : Frames :=
  initRegionFrom (size / memBlockSize) (base / memBlockSize) f

/-- `if (!mmap_test(i)) { _mem_used_blocks++; mmap_set(i); }` for `k` blocks from `i` on. -/
def markUsed : (k i : Nat) → Frames → Frames
  | 0, _, f => f
  | k + 1, i, f =>
    markUsed k (i + 1)
      (if mmapTest i f then f
      else { mmapSet i f with usedBlocks := add64 f.usedBlocks 1 })

/-- The highest address of available memory. -/
def limit (memoryMap : List MemoryRegion) : Nat :=
  memoryMap.foldl
    (fun limit r => if r.type = 1 ∧ limit < add64 r.start r.size then add64 r.start r.size else limit)
    0

/-- `blocks_used_by_kernel`. -/
def blocksUsedByKernel (kernelEnd maxBlocks : Nat) : Nat :=
  sub64 (kernelEnd / 0x1000 + 1 + maxBlocks / memBlocksPerByte / memBlockSize + 1)
    (kernelStart / 0x1000)

/-- The address `memman_init` puts the bitmap at. -/
def memoryMapAddr (kernelEnd : Nat) : Nat := (kernelEnd / 0x1000 + 1) * 0x1000

/-- All blocks used: the words up to that of block `_mem_max_blocks` are filled, the others are
those of `memory`. -/
def fillMap (maxBlocks : Nat) (memory : Words) : Frames where
  usedBlocks := maxBlocks
  maxBlocks := maxBlocks
  memoryMap := fun i => if i ≤ maxBlocks / memMapWordSize then BitVec.allOnes 64 else memory i

/-- The part of `memman_init` that sets up the bitmap, in the words of `memory`. -/
def memmanInit (kernelEnd : Nat) (memoryMap : List MemoryRegion) (memory : Words) : Frames :=
  let f := fillMap (limit memoryMap / memBlockSize) memory
  let f := memoryMap.foldl (fun f r => if r.type = 1 then memInitRegion r.start r.size f else f) f
  let f := markUsed 256 0 f
  markUsed (blocksUsedByKernel kernelEnd f.maxBlocks) 0x200 f

end Memman
