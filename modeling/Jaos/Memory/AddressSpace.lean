import Jaos.Heap.Kheap
import Jaos.Lib.Run
import Jaos.Memory.FrameRun
import Jaos.Memory.Paging

/-!
# Address spaces (`kernel/memman.c`, `kernel/kheap.c`)

`kmalloc_a` on top of the heap and of `alloc_kernel_page`, `clone_pml4t`, which copies the tables
below the kernel into blocks from `kmalloc_a`, and the system: the kernel with the roots of all
address spaces, and its steps between two calls of the memory manager.

What the blocks of the heap hold is in `phys`, the heap's own words, its tags and its index, are in
`kheap`. `mem_clear_block` and `mem_copy_block` are called with the addresses of pages; their loops
over the words of the page are done in one step.
-/

namespace Paging

open Lib Memman Kheap

/-- The kernel: the machine and the heap once there is one. -/
structure Kernel where
  machine : Machine
  kheap : Option Heap

namespace Kernel

/-- A function of the memory manager that leaves the heap alone. -/
def run (f : Machine → Option Machine) (k : Kernel) : Option Kernel :=
  (f k.machine).map fun m => { k with machine := m }

end Kernel

/-! ## `kmalloc` -/

def kernelPages : KernelPages Machine := ⟨allocKernelPage, freeKernelPage⟩

/-- `kheap_init`; `mem` and `slots` are what the memory of the heap and of its index held. -/
def kheapInit (mem : Mem) (slots : Nat → Nat) (k : Kernel) : Option Kernel :=
  if sub64 kheapInitialSize (heapIndexSize * 8) + Kheap.memBlockSize < heapMinSize then some k
  else
    (allocKernelPage (kheapInitialSize / Kheap.memBlockSize) k.machine).map fun r =>
      ⟨r.2, some (createHeap r.1 (add64 r.1 kheapInitialSize) 0xd0000000 0 0 mem slots)⟩

/-- `kmalloc_int`; `fuel` is that of `alloc`. -/
def kmallocInt (fuel sz align : Nat) (k : Kernel) : Option (Addr × Kernel) :=
  if sz = 0 then some (0, k)
  else
    match k.kheap with
    | some kheap =>
      (alloc kernelPages fuel sz align kheap k.machine).map fun r => (r.1, ⟨r.2.2, some r.2.1⟩)
    | none =>
      let sz := if sz &&& 0xFFF ≠ 0 then (sz &&& 0xFFFFF000) / 0x1000 else sz
      (allocKernelPage sz k.machine).map fun r => (r.1, { k with machine := r.2 })

/-- `kmalloc`. -/
def kmalloc (fuel sz : Nat) (k : Kernel) : Option (Addr × Kernel) := kmallocInt fuel sz 0 k

/-- `kmalloc_a`. The history gets the address, the number of the next kernel page and the frame. -/
def kmallocA (fuel sz : Nat) (k : Kernel) : Option (Addr × Kernel) :=
  (kmallocInt fuel sz 1 k).map fun r =>
    let m := r.2.machine
    let block := .block r.1 m.nextBlock (translate m.phys m.cr3 r.1)
    (r.1, { r.2 with machine := { m with log := block :: m.log } })

/-! ## `clone_pml4t` -/

/-- `mem_clear_block`. -/
def memClearBlock (address : Addr) (m : Machine) : Option Machine :=
  (locate address m).map fun l => { m with phys := upd m.phys l.1 fun _ => .zero }

/-- `mem_copy_block`. -/
def memCopyBlock (source target : Addr) (m : Machine) : Option Machine :=
  (locate source m).bind fun s =>
    (locate target m).map fun t => { m with phys := upd m.phys t.1 (m.phys s.1) }

/-- `if (entry->present == 1)` around a part of `clone_pml4t`. -/
def whenPresent (a : Addr) (body : Kernel → Option Kernel) (k : Kernel) : Option Kernel :=
  (load a k.machine).bind fun e => if e.present then body k else some k

/-- Assignments to the fields of the entry at `entry`, one of them the frame of the page at `page`
as `get_physical_address` finds it. -/
def writeLink (entry page : Addr) (fields : Nat → List (Entry → Entry)) (m : Machine) :
    Option Machine :=
  (getPhysicalAddress page m).bind fun a => writeFields entry (fields (a / 0x1000)) m

/-- The fields of an entry that leads to a table. -/
def tableFields (frame : Nat) : List (Entry → Entry) :=
  [.setFrame frame, .setPresent true, .setRw true, .setUser true]

/-- The fields of the entry of a copied page. -/
def pageFields (frame : Nat) : List (Entry → Entry) :=
  [.setFrame frame, .setUser true, .setPresent true, .setRw true]

/-- The fields of `pml4[511]`. -/
def selfFields (frame : Nat) : List (Entry → Entry) :=
  [.setFrame frame, .setPresent true, .setRw true, .setUser false]

/-- The innermost body: page `y` of the table `z` of the directory `i` gets a copy in `pt`. -/
def clonePage (fuel : Nat) (pt : Addr) (i z y : Nat) : Kernel → Option Kernel :=
  whenPresent (getPageEntry 0 i z y) fun k =>
    (kmallocA fuel Memman.memBlockSize k).bind fun newPage =>
      newPage.2.run fun m =>
        (memCopyBlock (.ofIndices 0 i z y) newPage.1 m).bind
          (writeLink (entryAt pt y) newPage.1 pageFields)

/-- What the two outer bodies have in common: if the entry at `a` leads to a table, a new cleared
table is linked from `entry` and filled. -/
def cloneTable (fuel : Nat) (a entry : Addr) (fill : Addr → Kernel → Option Kernel) :
    Kernel → Option Kernel :=
  whenPresent a fun k =>
    (kmallocA fuel Memman.memBlockSize k).bind fun table =>
      (table.2.run fun m =>
        (memClearBlock table.1 m).bind (writeLink entry table.1 tableFields)).bind (fill table.1)

/-- The body of the loop on `z`. -/
def clonePt (fuel : Nat) (pd : Addr) (i z : Nat) : Kernel → Option Kernel :=
  cloneTable fuel (getPdEntry 0 i z) (entryAt pd z) fun pt => loop (clonePage fuel pt i z) 512 0

/-- The body of the loop on `i`. -/
def clonePd (fuel : Nat) (pdp : Addr) (i : Nat) : Kernel → Option Kernel :=
  cloneTable fuel (getPdpEntry 0 i) (entryAt pdp i) fun pd => loop (clonePt fuel pd i) 512 0

/-- `clone_pml4t` up to its loop. -/
def cloneRoot (pml4 pdp : Addr) (m : Machine) : Option Machine :=
  (memClearBlock pml4 m).bind fun m =>
    (memClearBlock pdp m).bind (writeLink (entryAt pml4 0) pdp tableFields)

/-- `clone_pml4t` from `pdp[3] = *get_pdp_entry(0, 3)` on. -/
def cloneKernel (pml4 pdp : Addr) (m : Machine) : Option Machine :=
  (load (getPdpEntry 0 3) m).bind fun e =>
    (modify (entryAt pdp 3) (fun _ => e) m).bind (writeLink (entryAt pml4 511) pml4 selfFields)

/-- `clone_pml4t`: the physical address of the new root. -/
def clonePml4t (fuel : Nat) (k : Kernel) : Option (Nat × Kernel) :=
  (kmallocA fuel Memman.memBlockSize k).bind fun pml4 =>
    (kmallocA fuel Memman.memBlockSize pml4.2).bind fun pdp =>
      (pdp.2.run (cloneRoot pml4.1 pdp.1)).bind fun k =>
        (loop (clonePd fuel pdp.1) 3 0 k).bind fun k =>
          (k.run (cloneKernel pml4.1 pdp.1)).bind fun k =>
            (getPhysicalAddress pml4.1 k.machine).map fun phys => (phys, k)

/-! ## The system -/

/-- The kernel and the roots of the address spaces, as frame numbers. -/
structure Sys where
  kernel : Kernel
  spaces : List Nat

inductive Op
  | kheapInit
  | kmalloc (sz : Nat)
  | allocPage (virtual : Addr) (size : Nat)
  | allocKernelPage (size : Nat)
  | clonePml4t
  | cleanUserSpace
  | switchPaging (root : Nat)
  | store (a : Addr) (e : Entry)

/-- The step of an operation that neither makes a space nor touches the heap. -/
def Sys.with (s : Sys) (m : Machine) : Sys := { s with kernel := { s.kernel with machine := m } }

/-- The operations of the memory manager, task switches, and the stores of programs to their own
memory. -/
inductive Step : Sys → Op → Sys → Prop
  | kheapInit {s : Sys} {mem : Mem} {slots : Nat → Nat} {k : Kernel} :
      Paging.kheapInit mem slots s.kernel = some k → Step s .kheapInit { s with kernel := k }
  | kmalloc {s : Sys} {fuel sz : Nat} {p : Addr} {k : Kernel} :
      Paging.kmalloc fuel sz s.kernel = some (p, k) → Step s (.kmalloc sz) { s with kernel := k }
  | allocPage {s : Sys} {virtual size : Nat} {p : Addr} {m : Machine} :
      Paging.allocPage virtual size s.kernel.machine = some (p, m) →
      Step s (.allocPage virtual size) (s.with m)
  | allocKernelPage {s : Sys} {size : Nat} {p : Addr} {m : Machine} :
      Paging.allocKernelPage size s.kernel.machine = some (p, m) →
      Step s (.allocKernelPage size) (s.with m)
  | clonePml4t {s : Sys} {fuel phys : Nat} {k : Kernel} :
      Paging.clonePml4t fuel s.kernel = some (phys, k) →
      Step s .clonePml4t ⟨k, phys / 0x1000 :: s.spaces⟩
  | cleanUserSpace {s : Sys} {m : Machine} :
      Paging.cleanUserSpace s.kernel.machine = some m → Step s .cleanUserSpace (s.with m)
  | switchPaging {s : Sys} {root : Nat} : root ∈ s.spaces →
      Step s (.switchPaging root) (s.with (Paging.switchPaging (root * 0x1000) s.kernel.machine))
  | store {s : Sys} {a : Addr} {e : Entry} {m : Machine} : a < 0xC0000000 →
      modify a (fun _ => e) s.kernel.machine = some m → Step s (.store a e) (s.with m)

/-- The loader's root table, at `0x1000`. -/
def loaderPml4 : Nat := 1

/-- The machine the kernel starts on: the conditions of the frame allocator, an image that ends
below 4 GB, and physical addresses of at most 52 bits. -/
structure Machine.Boot (kernelEnd : Nat) (memoryMap : List MemoryRegion) : Prop extends
    Memman.Boot kernelEnd memoryMap where
  image32 : kernelEnd < 2 ^ 32
  phys52 : limit memoryMap ≤ 2 ^ 52

/-- The state `memman_init` leaves: one address space and no heap. -/
inductive Init : Sys → Prop
  | mk {kernelEnd : Nat} {memoryMap : List MemoryRegion} {memory : Words} {phys : Phys}
      {m : Machine} : Machine.Boot kernelEnd memoryMap →
      memmanInit kernelEnd memoryMap memory phys loaderPml4 = some m → Init ⟨⟨m, none⟩, [m.cr3]⟩

/-! ## Running the model -/

/-- One step with at most two calls of `alloc` a block, in cleared heap memory. -/
def exec (s : Sys) : Op → Option Sys
  | .kheapInit => (Paging.kheapInit (fun _ => 0) (fun _ => 0) s.kernel).map fun k =>
      { s with kernel := k }
  | .allocPage virtual size => (Paging.allocPage virtual size s.kernel.machine).map fun r => s.with r.2
  | .allocKernelPage size => (Paging.allocKernelPage size s.kernel.machine).map fun r => s.with r.2
  | .clonePml4t => (Paging.clonePml4t 2 s.kernel).map fun r => ⟨r.2, r.1 / 0x1000 :: s.spaces⟩
  | .switchPaging root =>
    if root ∈ s.spaces then
      some (s.with (Paging.switchPaging (root * 0x1000) s.kernel.machine))
    else none
  | _ => none

theorem exec_step {s s' : Sys} {op : Op} (h : exec s op = some s') : Step s op s' := by
  cases op with
  | kheapInit =>
    obtain ⟨k, hk, rfl⟩ := Option.map_eq_some_iff.1 h
    exact .kheapInit hk
  | kmalloc sz => cases h
  | allocPage virtual size =>
    obtain ⟨⟨p, m⟩, hm, rfl⟩ := Option.map_eq_some_iff.1 h
    exact .allocPage hm
  | allocKernelPage size =>
    obtain ⟨⟨p, m⟩, hm, rfl⟩ := Option.map_eq_some_iff.1 h
    exact .allocKernelPage hm
  | clonePml4t =>
    obtain ⟨⟨phys, k⟩, hk, rfl⟩ := Option.map_eq_some_iff.1 h
    exact .clonePml4t hk
  | cleanUserSpace => cases h
  | switchPaging root =>
    obtain ⟨hr, h⟩ := Option.ite_none_right_eq_some.1 h
    cases h
    exact .switchPaging hr
  | store a e => cases h

/-- 64 blocks from 1 MB on, and room for a kernel of one page. -/
def tinyMap : List MemoryRegion := [⟨0x100000, 0x40000, 1⟩, ⟨0x200000, 0x10000, 1⟩]

theorem boot_tinyMap : Machine.Boot 0xC0001000 tinyMap where
  regions := by simp [tinyMap]
  image := by decide
  imageEnd := by decide
  room := by decide
  image32 := by decide
  phys52 := by decide

/-- What `memman_init` makes of this memory. -/
def boot? (phys : Phys) : Option Sys :=
  (memmanInit 0xC0001000 tinyMap (fun _ => 0) phys loaderPml4).map fun m => ⟨⟨m, none⟩, [m.cr3]⟩

theorem init_boot {phys : Phys} {s : Sys} (h : boot? phys = some s) : Init s := by
  obtain ⟨m, hm, rfl⟩ := Option.map_eq_some_iff.1 h
  exact .mk boot_tinyMap hm

end Paging
