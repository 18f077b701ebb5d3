import Jaos.Lib.Walk
import Jaos.Lib.Loop
import Jaos.Lib.Chain
import Jaos.Memory.Frames

/-!
# Paging (`kernel/memman.c`)

Physical memory as the paging tables use it, the walk the hardware does on it, and the functions of
the memory manager that map pages: `create_page_for_current`, `alloc_page`, `alloc_kernel_page`,
`clean_user_space` and what they call. The kernel reaches the tables of the current address space
through the window `_current_pml4`, .., `_current_pt`, that is through virtual addresses: every
read and write of an entry goes through a walk of its own (`locate`), and one that is not mapped
faults (`none`). Every assignment to a field of an entry reads and writes the whole word.

A walk has four levels and uses the frame numbers and `present` bits only. Pages of 2 MB and 1 GB are
left out: no function sets the bit that asks for them, which the entry types call `zero`. An old entry
of a table that nobody cleared may have it, or one that the processor reserves; `hardware` is the walk
with these bits, and where no entry on the way has one (`Entry.Plain`, `Entry.Goes`) the two agree
(`hardware_eq`).

The field for the frame has 40 bits, and the compiler gives its product with `0x1000` the width of the
field: frame numbers from `2 ^ 28` on lose their top bits where an address is made of them.
-/

namespace Paging

open Lib Memman

/-- `union address`. -/
abbrev Addr : Type := Nat

namespace Addr

/-- The page with the given indices. -/
def ofIndices (w x y z : Nat) : Addr := (((w * 512 + x) * 512 + y) * 512 + z) * 4096

def offset (a : Addr) : Nat := a % 2 ^ 12
def pt (a : Addr) : Nat := a / 2 ^ 12 % 512
def pd (a : Addr) : Nat := a / 2 ^ 21 % 512
def pdp (a : Addr) : Nat := a / 2 ^ 30 % 512
def pml4 (a : Addr) : Nat := a / 2 ^ 39 % 512

/-- All four indices in one field: the number of the virtual page. -/
def frame (a : Addr) : Nat := a / 2 ^ 12 % 2 ^ 36

/-- The indices in the order in which the hardware uses them. -/
def indices (a : Addr) : List Nat := [a.pml4, a.pdp, a.pd, a.pt]

end Addr

/-! ## Entries and memory -/

/-- An entry of a table of any level. `frame` is the field that the four entry types call
`directory_pointer`, `directory`, `table` and `frame`; `rest` are the bits no function looks at. -/
structure Entry where
  present : Bool
  rw : Bool
  user : Bool
  frame : BitVec 40
  rest : BitVec 21
  deriving DecidableEq

namespace Entry

def setPresent (b : Bool) (e : Entry) : Entry := { e with present := b }
def setRw (b : Bool) (e : Entry) : Entry := { e with rw := b }
def setUser (b : Bool) (e : Entry) : Entry := { e with user := b }

/-- The field keeps 40 bits of the frame number. -/
def setFrame (n : Nat) (e : Entry) : Entry := { e with frame := BitVec.ofNat 40 n }

/-- `hex = 0`. -/
def zero : Entry := ⟨false, false, false, 0, 0⟩

/-- `frame * 0x1000`, in 40 bits. -/
def address (e : Entry) : Nat := e.frame.toNat * 0x1000 % 2 ^ 40

/-- Bit 7, `zero` in the entries of levels 2 and 3: they map a large page. -/
def large (e : Entry) : Bool := e.rest.getLsbD 4

/-- Bit 8, part of `mbz` in the entries of levels 3 and 4. -/
def mbz (e : Entry) : Bool := e.rest.getLsbD 5

/-- Bit 63, `nx`, which is reserved: nothing switches it on. -/
def nx (e : Entry) : Bool := e.rest.getLsbD 20

/-- None of the three is set. -/
def Plain (e : Entry) : Prop := e.large = false ∧ e.mbz = false ∧ e.nx = false

instance (e : Entry) : Decidable e.Plain := inferInstanceAs (Decidable (_ ∧ _ ∧ _))

/-- None is set that the processor looks at in an entry with `n` levels below it. -/
def Goes (n : Nat) (e : Entry) : Prop :=
  e.nx = false ∧ (2 ≤ n → e.mbz = false) ∧ (n ≠ 0 → e.large = false)

theorem Plain.goes {e : Entry} (h : e.Plain) (n : Nat) : e.Goes n :=
  ⟨h.2.2, fun _ => h.2.1, fun _ => h.1⟩

end Entry

/-- Physical memory: the 512 words of every frame, as entries. -/
abbrev Phys : Type := Nat → Nat → Entry

def setEntry (f i : Nat) (e : Entry) (phys : Phys) : Phys := upd phys f (upd (phys f) i e)

/-- What the history of a machine records: a frame that became a table, with the address of the entry
that leads to it now and what it held at that moment; a call of `alloc_kernel_page`; a block that
`kmalloc_a` returned, with the page behind the last one that `alloc_kernel_page` had handed out and the
frame the block is mapped to; a call of `mem_free_block` by `clean_user_space`. -/
inductive Event
  | table (entry : Addr) (frame : Nat) (old : Nat → Entry)
  | pages (first size : Nat)
  | block (addr limit : Nat) (frame : Option Nat)
  | freed (addr : Nat)

/-- The processor's `cr3` as a frame number, physical memory and the memory manager's state. `log`
is the history; no function reads it. -/
structure Machine where
  phys : Phys
  cr3 : Nat
  frames : Frames
  nextBlock : Nat
  log : List Event

/-- Where entry `i` of the table `f` leads. -/
def next (phys : Phys) (f i : Nat) : Option Nat :=
  if (phys f i).present then some (phys f i).frame.toNat else none

/-- The frame that the tables below `root` map the page of `a` to. -/
def translate (phys : Phys) (root : Nat) (a : Addr) : Option Nat := walk (next phys) root a.indices

/-- The frame in the large page of `e` that the indices left, `is`, lead to. The processor reserves
the bits of the frame number below the size of the page, but for one. -/
def largePage (e : Entry) (is : List Nat) : Option Nat :=
  if e.frame.toNat % 512 ^ is.length / 2 = 0 then
    some (is.foldl (fun n i => n * 512 + i) (e.frame.toNat / 512 ^ is.length))
  else none

/-- The processor's walk from the table `f`; its level is the number of indices. -/
def hardware (phys : Phys) : (f : Nat) → List Nat → Option Nat
  | f, [] => some f
  | f, i :: is =>
    let e := phys f i
    if !e.present || e.nx || (decide (2 ≤ is.length) && e.mbz) then none
    else if e.large && !is.isEmpty then
      if is.length = 3 then none else largePage e is
    else hardware phys e.frame.toNat is

/-- The frame and the word in it that a virtual address of a word stands for. -/
def locate (a : Addr) (m : Machine) : Option (Nat × Nat) :=
  (translate m.phys m.cr3 a).map fun f => (f, a.offset / 8)

def load (a : Addr) (m : Machine) : Option Entry := (locate a m).map fun l => m.phys l.1 l.2

def modify (a : Addr) (g : Entry → Entry) (m : Machine) : Option Machine :=
  (locate a m).map fun l => { m with phys := setEntry l.1 l.2 (g (m.phys l.1 l.2)) m.phys }

/-- Assignments to fields of the entry at `a`, one after the other. -/
def writeFields (a : Addr) : List (Entry → Entry) → Machine → Option Machine
  | [], m => some m
  | g :: gs, m => (modify a g m).bind (writeFields a gs)

/-! ## The history -/

/-- The first page of the window. -/
def windowPage : Nat := 511 * 2 ^ 27

/-- What a run without surprises records: tables come from real frames that hold no entry, the
kernel's pages end below the window, and `kmalloc_a` returns page-aligned kernel addresses in pages
that `alloc_kernel_page` has handed out, mapped to frames whose address fits 40 bits. -/
def Event.Ok : Event → Prop
  | .table _ frame old => frame ≠ 0 ∧ ∀ i, i < 512 → (old i).present = false
  | .pages first size => first + size ≤ windowPage
  | .block addr limit frame => addr % 0x1000 = 0 ∧ 0xC0000000 ≤ addr ∧ addr / 0x1000 < limit ∧
      ∃ n ∈ frame, n < 2 ^ 28
  | .freed _ => True

/-- The old entries of a new table ask for no large page and have no reserved bit. -/
def Event.Plain : Event → Prop
  | .table _ _ old => ∀ i, i < 512 → (old i).Plain
  | _ => True

/-- The addresses that `kmalloc_a` returned. -/
def blocks (log : List Event) : List Addr :=
  log.filterMap fun e => match e with
    | .block addr _ _ => some addr
    | _ => none

/-! ## The window -/

def currentPml4 : Addr := 0xFFFFFFFFFFFFF000
def currentPdp : Addr := 0xFFFFFFFFFFE00000
def currentPd : Addr := 0xFFFFFFFFC0000000
def currentPt : Addr := 0xFFFFFF8000000000

/-- `&table[i]`. -/
def entryAt (table : Addr) (i : Nat) : Addr := add64 table (8 * i)

/-- `get_pml4_entry`. -/
def getPml4Entry (i : Nat) : Addr := entryAt currentPml4 i

/-- `get_pdp_entry`. -/
def getPdpEntry (a b : Nat) : Addr := entryAt currentPdp (a * 512 + b)

/-- `get_pd_entry`. -/
def getPdEntry (a b c : Nat) : Addr := entryAt currentPd ((a * 512 + b) * 512 + c)

/-- `get_page_entry`. -/
def getPageEntry (a b c d : Nat) : Addr := entryAt currentPt (((a * 512 + b) * 512 + c) * 512 + d)

/-- `get_physical_address`. -/
def getPhysicalAddress (a : Addr) (m : Machine) : Option Nat :=
  (load (entryAt currentPt a.frame) m).map Entry.address

/-- `switch_paging`. -/
def switchPaging (addr : Nat) (m : Machine) : Machine := { m with cr3 := addr / 0x1000 }

/-! ## Mapping pages -/

/-- One of the three tests of `create_page_for_current`: if the entry at `a` is not present it gets
a new table. The frame is linked as `mem_alloc_block` hands it out, frame 0 if there is none. -/
def linkTable (a : Addr) (user : Bool) (m : Machine) : Option Machine :=
  (load a m).bind fun e =>
    if e.present then some m
    else
      let r := memAllocBlock m.frames
      let frame := r.1 / 0x1000
      writeFields a [.setFrame frame, .setPresent true, .setRw true, .setUser user]
        { m with frames := r.2, log := .table a frame (m.phys frame) :: m.log }

/-- `create_page_for_current`: the address of the entry for the page of `a`. -/
def createPageForCurrent (a : Addr) (user : Bool) (m : Machine) : Option (Addr × Machine) :=
  (linkTable (entryAt currentPml4 a.pml4) user m).bind fun m =>
    (linkTable (entryAt currentPdp (a.pml4 * 512 + a.pdp)) user m).bind fun m =>
      (linkTable (entryAt currentPd ((a.pml4 * 512 + a.pdp) * 512 + a.pd)) user m).map fun m =>
        (entryAt currentPt a.frame, m)

/-- The loop of `alloc_page` and `alloc_kernel_page` on the pages `address i`; false if it ends
early. The address of the entry is never null, so that test is left out. -/
def allocFrom (address : Nat → Addr) (user : Bool) : (k i : Nat) → Machine →
    Option (Bool × Machine)
  | 0, _, m => some (true, m)
  | k + 1, i, m =>
    let r := memAllocBlock m.frames
    let m := { m with frames := r.2 }
    if r.1 = 0 then some (false, m)
    else
      (createPageForCurrent (address i) user m).bind fun p =>
        (writeFields p.1 [.setPresent true, .setUser user, .setRw true, .setFrame (r.1 / 0x1000)]
          p.2).bind (allocFrom address user k (i + 1))

/-- `alloc_page`. -/
def allocPage (virtual : Addr) (size : Nat) (m : Machine) : Option (Addr × Machine) :=
  let size := if size = 0 then 1 else size
  (allocFrom (fun i => add64 virtual (i * 0x1000)) true size 0 m).map fun r =>
    (if r.1 then virtual else 0, r.2)

/-- `alloc_kernel_page`. -/
def allocKernelPage (size : Nat) (m : Machine) : Option (Addr × Machine) :=
  (allocFrom (fun i => add64 m.nextBlock i * 0x1000 % 2 ^ 64) false size 0
      { m with log := .pages m.nextBlock size :: m.log }).map fun r =>
    if r.1 then
      let m := { r.2 with nextBlock := add64 r.2.nextBlock size }
      (sub64 m.nextBlock size * 0x1000 % 2 ^ 64, m)
    else (0, r.2)

/-- `free_kernel_page` counts its arguments up and returns. -/
def freeKernelPage (_address _size : Nat) (m : Machine) : Machine := m

/-! ## `clean_user_space` -/

/-- The innermost body. -/
def cleanPage (i z y : Nat) (m : Machine) : Option Machine :=
  let page := getPageEntry 0 i z y
  (load page m).bind fun e =>
    if e.present ∧ y < 510 ∧ z ≠ 511 ∧ i ≠ 2 then
      modify page (fun _ => .zero)
        { m with frames := memFreeBlock e.address m.frames, log := .freed e.address :: m.log }
    else some m

/-- `if (entry->present == 1)`. -/
def ifPresent (a : Addr) (body : Machine → Option Machine) (m : Machine) : Option Machine :=
  (load a m).bind fun e => if e.present then body m else some m

/-- `clean_user_space`. -/
def cleanUserSpace (m : Machine) : Option Machine :=
  loop (fun i => ifPresent (getPdpEntry 0 i)
    (loop (fun z => ifPresent (getPdEntry 0 i z) (loop (fun y => cleanPage i z y) 512 0)) 512 0)) 3 0 m

/-! ## The paging part of `memman_init` -/

/-- Assignments to fields of an entry at a physical address: until the kernel's own tables are
loaded the first gigabyte is mapped to itself. -/
def writeLow (f i : Nat) (gs : List (Entry → Entry)) (m : Machine) : Option Machine :=
  if f < 0x40000 then
    some { m with phys := setEntry f i (gs.foldl (fun e g => g e) (m.phys f i)) m.phys }
  else none

/-- A kernel page mapped by `memman_init`. -/
def initPage (a : Addr) (frame : Nat) (m : Machine) : Option Machine :=
  (createPageForCurrent a false m).bind fun p =>
    writeFields p.1 [.setFrame frame, .setPresent true, .setUser false, .setRw true] p.2

/-- `memman_init` from "this code will initialize paging" on; `blocks` is
`blocks_used_by_kernel`. -/
def initPaging (blocks : Nat) (m : Machine) : Option Machine :=
  let r := memAllocBlock m.frames
  let pml4New := r.1 / 0x1000
  let self : List (Entry → Entry) :=
    [.setFrame pml4New, .setPresent true, .setRw true, .setUser false]
  let m := { m with frames := r.2, log := .table (getPml4Entry 511) pml4New (m.phys pml4New) :: m.log }
  (writeLow m.cr3 511 self m).bind fun m =>
    (writeLow pml4New 511 self m).bind fun m =>
      (loop (fun i => initPage (0xC0000000 + i * 0x1000) ((0x200000 + i * 0x1000) / 0x1000))
          blocks 0 m).bind fun m =>
        (initPage 0xFFFFF000 8 m).bind fun m =>
          (initPage (m.nextBlock * 0x1000 % 2 ^ 64) 0xB8 m).map fun m =>
            switchPaging r.1 { m with nextBlock := add64 m.nextBlock 1 }

/-- The machine after `memman_init`; `phys` and `memory` are what memory held before, and `cr3` is
the loader's. -/
def memmanInit (kernelEnd : Nat) (memoryMap : List MemoryRegion) (memory : Words) (phys : Phys)
    (cr3 : Nat) : Option Machine :=
  let frames := Memman.memmanInit kernelEnd memoryMap memory
  let blocks := blocksUsedByKernel kernelEnd frames.maxBlocks
  initPaging blocks
    { phys, cr3, frames, nextBlock := add64 (0xC0000000 / 0x1000) blocks, log := [] }

end Paging
