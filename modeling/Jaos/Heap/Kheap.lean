import Jaos.Lib.Bytes
import Jaos.Heap.OrderedArray

/-!
# The kernel heap (`kernel/kheap.c`)

`alloc` and `free` with the functions they call, as the C code computes them. Chunks carry a
16-byte header and a 16-byte footer in the heap's own memory, `index` lists the headers of the
holes. The memory is the heap's virtual memory, byte by byte; a byte that is not mapped yet has the
value it will have once it is.

The `heap_t` record and the index array lie below `start_address` in C and are fields here. The
pages come from `alloc_kernel_page` and go back to `free_kernel_page`, an argument
(`KernelPages`): the heap never looks at what they return. `console` collects what is printed, while
the monitor is not registered.
-/

namespace Kheap

open Lib OrderedArray

abbrev memBlockSize : Nat := 4096
abbrev heapIndexSize : Nat := 0x1000
abbrev heapMagic : Nat := 0xDEADBABA
abbrev heapMinSize : Nat := 0x10000
abbrev kheapInitialSize : Nat := 0x20000
abbrev sizeofHeader : Nat := 16
abbrev sizeofFooter : Nat := 16
abbrev sizeofHeap : Nat := 64

/-! ## Headers and footers in memory -/

/-- `magic` of the header or footer at `a`. -/
def magicAt (m : Mem) (a : Nat) : Nat := m.load a 4

/-- `is_hole` of the header at `a`. -/
def isHoleAt (m : Mem) (a : Nat) : Nat := m.load (a + 4) 1

/-- `size` of the header at `a`. -/
def sizeAt (m : Mem) (a : Nat) : Nat := m.load (a + 8) 8

/-- `header` of the footer at `a`. -/
def headerAt (m : Mem) (a : Nat) : Nat := m.load (a + 8) 8

def setMagic (a v : Nat) (m : Mem) : Mem := m.store a 4 v
def setIsHole (a v : Nat) (m : Mem) : Mem := m.store (a + 4) 1 v
def setSize (a v : Nat) (m : Mem) : Mem := m.store (a + 8) 8 v
def setHeader (a v : Nat) (m : Mem) : Mem := m.store (a + 8) 8 v

/-- All three fields of the header at `a`. -/
def writeHeader (a isHole size : Nat) (m : Mem) : Mem :=
  setSize a size (setIsHole a isHole (setMagic a heapMagic m))

/-- Both fields of the footer at `a`. -/
def writeFooter (a header : Nat) (m : Mem) : Mem := setHeader a header (setMagic a heapMagic m)

/-! ## The heap -/

/-- `heap_t` with the heap's memory and the text printed so far. -/
structure Heap where
  mem : Mem
  index : OrderedArray Nat
  startAddress : Nat
  endAddress : Nat
  maxAddress : Nat
  supervisor : Nat
  readonly : Nat
  console : List String

/-- The kernel page allocator as the heap calls it, on a state of type `σ`. A call that faults
does not return. -/
structure KernelPages (σ : Type) where
  allocKernelPage : (size : Nat) → σ → Option (Nat × σ)
  freeKernelPage : (address size : Nat) → σ → σ

/-- `puts` before `monitor_init`, which only prints. The lock that it takes afterwards calls the heap in
turn: these calls are left out here, `Heap/Calls` has them. -/
def puts (msg : String) (h : Heap) : Heap := { h with console := h.console ++ [msg] }

def putsIf (c : Prop) [Decidable c] (msg : String) (h : Heap) : Heap :=
  if c then puts msg h else h

/-- The memory of the heap changed by `f`. -/
def onMem (f : Mem → Mem) (h : Heap) : Heap := { h with mem := f h.mem }

/-- `header_t_less_than`. -/
def headerTLessThan (m : Mem) (a b : Nat) : Bool := decide (sizeAt m a < sizeAt m b)

/-- `insert_ordered_array` on the index. -/
def insertIndex (a : Nat) (h : Heap) : Heap :=
  { h with index := insertOrderedArray (headerTLessThan h.mem) a h.index }

/-- `remove_ordered_array` on the index. -/
def removeIndex (i : Nat) (h : Heap) : Heap := { h with index := removeOrderedArray i h.index }

/-- The nearest following page boundary. -/
def pageCeil (n : Nat) : Nat :=
  if n &&& 0xFFF ≠ 0 then add64 (n &&& 0xFFFFF000) 0x1000 else n

/-- `create_heap`; `mem` is the memory found there and `slots` that of the index array. -/
def createHeap (start endAddr max supervisor readonly : Nat) (mem : Mem) (slots : Nat → Nat) :
    Heap :=
  let h : Heap :=
    { mem, index := placeOrderedArray slots heapIndexSize, startAddress := start,
      endAddress := endAddr, maxAddress := max, supervisor, readonly, console := [] }
  let h := putsIf (start &&& 0xFFF ≠ 0) "Start address not page-aligned\n" h
  let h := putsIf (endAddr &&& 0xFFF ≠ 0) "End address not page-aligned\n" h
  let start := pageCeil (add64 start (8 * heapIndexSize + sizeofHeap))
  let h := { h with startAddress := start }
  insertIndex start (onMem (writeHeader start 1 (sub64 endAddr start)) h)

section
variable {σ : Type} (pg : KernelPages σ)

/-- `expand`. -/
def expand (newSize : Nat) (h : Heap) (s : σ) : Option (Heap × σ) :=
  let oldSize := sub64 h.endAddress h.startAddress
  let h := putsIf (newSize < oldSize) "expand: new_size smaller than current size\n" h
  let newSize := pageCeil newSize
  let h := putsIf (h.maxAddress < add64 h.startAddress newSize)
    "expand: expanded address exceeds maximum\n" h
  (pg.allocKernelPage (sub64 newSize oldSize / memBlockSize) s).map fun r =>
    ({ h with endAddress := add64 h.startAddress newSize }, r.2)

/-- The length `contract` settles on. -/
def contractSize (newSize : Nat) : Nat :=
  if pageCeil newSize < heapMinSize then heapMinSize else pageCeil newSize

/-- `contract`. -/
def contract (newSize : Nat) (h : Heap) (s : σ) : Nat × Heap × σ :=
  let oldSize := sub64 h.endAddress h.startAddress
  let h := puts "contracting\n" h
  let h := putsIf (oldSize ≤ newSize)
    "contract: contracting, but new_size is larger than old_size\n" h
  let newSize := contractSize newSize
  let s := pg.freeKernelPage (add64 h.startAddress newSize) (sub64 oldSize newSize / memBlockSize) s
  (newSize, { h with endAddress := add64 h.startAddress newSize }, s)

end

/-- The test of `find_smallest_hole` on one header. -/
def fits (size pageAlign : Nat) (m : Mem) (header : Nat) : Bool :=
  if 0 < pageAlign then
    let location := add64 header sizeofHeader
    let offset := if location &&& 0xFFF ≠ 0 then memBlockSize - location % memBlockSize else 0
    decide (offset < sizeAt m header) && decide (size ≤ sub64 (sizeAt m header) offset)
  else decide (size ≤ sizeAt m header)

/-- `find_smallest_hole`; `none` is the value `-1`. -/
def findSmallestHole (size pageAlign : Nat) (h : Heap) : Option Nat :=
  let iterator := scan (fun i => !fits size pageAlign h.mem (lookupOrderedArray i h.index))
    h.index.size 0
  if iterator = h.index.size then none else some iterator

/-! ## `alloc` -/

/-- The loop of `alloc` that looks for the endmost header: `idx` and `value` are the best found
below slot `i`, `k` slots are left. -/
def endmostFrom (index : OrderedArray Nat) : (k i : Nat) → (idx : Option Nat) → (value : Nat) →
    Option Nat
  | 0, _, idx, _ => idx
  | k + 1, i, idx, value =>
    let tmp := lookupOrderedArray i index
    if value < tmp then endmostFrom index k (i + 1) (some i) tmp
    else endmostFrom index k (i + 1) idx value

/-- The index of the endmost header, `none` for `-1`. -/
def endmost (index : OrderedArray Nat) : Option Nat := endmostFrom index index.size 0 none 0

/-- What `alloc` does with the space gained by `expand`: a new hole when the index is empty, else
the endmost header of the index grows. -/
def growHole (oldEndAddress oldLength : Nat) (h : Heap) : Heap :=
  let newLength := sub64 h.endAddress h.startAddress
  let gained := sub64 newLength oldLength
  match endmost h.index with
  | none =>
    let footer := sub64 (add64 oldEndAddress gained) sizeofFooter
    insertIndex oldEndAddress
      (onMem (fun m => writeFooter footer oldEndAddress (writeHeader oldEndAddress 1 gained m)) h)
  | some idx =>
    let header := lookupOrderedArray idx h.index
    let size := add64 (sizeAt h.mem header) gained
    let footer := sub64 (add64 header size) sizeofFooter
    onMem (fun m => writeFooter footer header (setSize header size m)) h

/-- The page-aligning step of `alloc`: the front of the hole becomes a hole of its own. Returns
the position and the size of what is left. -/
def splitFront (holePos holeSize : Nat) (h : Heap) : Nat × Nat × Heap :=
  let newLocation := sub64 (sub64 (add64 holePos memBlockSize) (holePos &&& 0xFFF)) sizeofHeader
  let frontSize := sub64 (sub64 memBlockSize (holePos &&& 0xFFF)) sizeofHeader
  let h := onMem (writeHeader holePos 1 frontSize) h
  let h := onMem (writeFooter (sub64 newLocation sizeofFooter) holePos) h
  (newLocation, sub64 holeSize (sizeAt h.mem holePos), h)

/-- The block's header and footer. -/
def writeBlock (pos size newSize : Nat) (h : Heap) : Heap :=
  onMem (fun m => writeFooter (add64 (add64 pos sizeofHeader) size) pos (writeHeader pos 0 newSize m))
    h

/-- The hole after the block, if anything is left of the old hole. -/
def splitRear (pos size newSize holeSize : Nat) (h : Heap) : Heap :=
  let rest := sub64 holeSize newSize
  if 0 < rest then
    let hole := add64 (add64 (add64 pos sizeofHeader) size) sizeofFooter
    let h := onMem (writeHeader hole 1 rest) h
    let footer := sub64 (sub64 (add64 hole holeSize) newSize) sizeofFooter
    let h := if footer < h.endAddress then onMem (writeFooter footer hole) h else h
    insertIndex hole h
  else h

/-- `alloc` from the hole at slot `iterator` of the index. -/
def allocFrom (size pageAlign iterator : Nat) (h : Heap) : Nat × Heap :=
  let newSize := add64 (add64 size sizeofHeader) sizeofFooter
  let holePos := lookupOrderedArray iterator h.index
  let holeSize := sizeAt h.mem holePos
  -- a rest too small for a hole of its own goes to the block
  let absorb := sub64 holeSize newSize < sizeofHeader + sizeofFooter
  let size := if absorb then add64 size (sub64 holeSize newSize) else size
  let newSize := if absorb then holeSize else newSize
  let r := if pageAlign ≠ 0 ∧ add64 holePos sizeofHeader &&& 0xFFF ≠ 0 then
      splitFront holePos holeSize h
    else (holePos, holeSize, removeIndex iterator h)
  let h := writeBlock r.1 size newSize r.2.2
  (add64 r.1 sizeofHeader, splitRear r.1 size newSize r.2.1 h)

/-- `alloc`; every retry after an expansion uses one unit of `fuel`. -/
def alloc {σ : Type} (pg : KernelPages σ) : (fuel : Nat) → (size pageAlign : Nat) → Heap → σ →
    Option (Nat × Heap × σ)
  | 0, _, _, _, _ => none
  | fuel + 1, size, pageAlign, h, s =>
    let newSize := add64 (add64 size sizeofHeader) sizeofFooter
    match findSmallestHole newSize pageAlign h with
    | none =>
      let oldLength := sub64 h.endAddress h.startAddress
      (expand pg (add64 oldLength newSize) h s).bind fun r =>
        alloc pg fuel size pageAlign (growHole h.endAddress oldLength r.1) r.2
    | some iterator =>
      let r := allocFrom size pageAlign iterator h
      some (r.1, r.2, s)

/-! ## `free` -/

/-- Unify left: the header of the merged hole, and whether it is still to be added to the
index. -/
def freeLeft (header footer : Nat) (h : Heap) : Nat × Bool × Heap :=
  let testFooter := sub64 header sizeofFooter
  if magicAt h.mem testFooter = heapMagic ∧ isHoleAt h.mem (headerAt h.mem testFooter) = 1 then
    let cacheSize := sizeAt h.mem header
    let header := headerAt h.mem testFooter
    let h := onMem (setHeader footer header) h
    (header, false, onMem (fun m => setSize header (add64 (sizeAt m header) cacheSize) m) h)
  else (header, true, h)

/-- The slot of `header` in the index, the number of slots in use when it has none. -/
def indexOf (header : Nat) (index : OrderedArray Nat) : Nat :=
  scan (fun i => decide (lookupOrderedArray i index ≠ header)) index.size 0

/-- Unify right: the footer of the merged hole. -/
def freeRight (header footer : Nat) (h : Heap) : Nat × Heap :=
  let testHeader := add64 footer sizeofFooter
  if magicAt h.mem testHeader = heapMagic ∧ isHoleAt h.mem testHeader ≠ 0 then
    let h := onMem (fun m => setSize header (add64 (sizeAt m header) (sizeAt m testHeader)) m) h
    let footer := sub64 (add64 testHeader (sizeAt h.mem testHeader)) sizeofFooter
    let i := indexOf testHeader h.index
    let h := putsIf (h.index.size ≤ i) "free: iterator failed to find item to unify\n" h
    (footer, removeIndex i h)
  else (footer, h)

/-- The contraction of a hole that ends the heap; `testHeader` is what `free` took for the right
neighbour. -/
def freeContract {σ : Type} (pg : KernelPages σ) (header footer testHeader : Nat) (h : Heap)
    (s : σ) : Heap × σ :=
  if add64 footer sizeofFooter = h.endAddress then
    let oldLength := sub64 h.endAddress h.startAddress
    let r := contract pg (sub64 header h.startAddress) h s
    let h := r.2.1
    let given := sub64 oldLength r.1
    if 0 < sub64 (sizeAt h.mem header) given then
      let h := onMem (fun m => setSize header (sub64 (sizeAt m header) given) m) h
      let footer := sub64 (add64 header (sizeAt h.mem header)) sizeofFooter
      (onMem (writeFooter footer header) h, r.2.2)
    else
      let iterator := indexOf testHeader h.index
      (if iterator < h.index.size then removeIndex iterator h else h, r.2.2)
  else (h, s)

/-- `free` from "Unify left" on. -/
def freeMerge {σ : Type} (pg : KernelPages σ) (header footer : Nat) (h : Heap) (s : σ) : Heap × σ :=
  let l := freeLeft header footer h
  let r := freeRight l.1 footer l.2.2
  let c := freeContract pg l.1 r.1 (add64 footer sizeofFooter) r.2 s
  (if l.2.1 then insertIndex l.1 c.1 else c.1, c.2)

/-- `free`. -/
def free {σ : Type} (pg : KernelPages σ) (p : Nat) (h : Heap) (s : σ) : Heap × σ :=
  if p = 0 then (h, s)
  else
    let header := sub64 p sizeofHeader
    let footer := sub64 (add64 header (sizeAt h.mem header)) sizeofFooter
    let h := putsIf (magicAt h.mem header ≠ heapMagic) "free: header magic bad\n" h
    let h := putsIf (magicAt h.mem footer ≠ heapMagic) "free: footer magic bad\n" h
    freeMerge pg header footer (onMem (setIsHole header 1) h) s

end Kheap
