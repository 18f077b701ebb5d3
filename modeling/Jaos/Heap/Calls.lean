import Jaos.Lib.Prog
import Jaos.Heap.Proof.AllocRun

/-!
# The heap and the console call each other

`alloc` and `free` print, `puts` takes `monitor_lock` and gives it back for the string and for every
character of it, `lock` allocates the record of its owner and `unlock` frees it. `allocCalls` and
`freeCalls` are `alloc` and `free` with their calls of `puts` left open; answered by a `puts` that only
prints they are `alloc` and `free` (`allocCalls_exec`, `freeCalls_exec`).

`heapCall` closes the circle for one process. It records every call of `alloc` and `free` on `kheap`
with the number of those in progress when it starts. A retry of `alloc` belongs to the call that it
ends. Only the queue of `monitor_lock` is modelled, and no other process waits in it: it is empty or
consists of the record at `head`.
-/

namespace Kheap

open Lib OrderedArray

section
variable {σ : Type} (pg : KernelPages σ)

/-! ## `alloc` and `free` with open calls of `puts` -/

/-- `expand`. -/
def expandCalls (newSize : Nat) (x : Heap × σ) : Prog (Heap × σ) String Unit :=
  .callIf (newSize < sub64 x.1.endAddress x.1.startAddress)
    "expand: new_size smaller than current size\n" x fun x =>
  let newSize := pageCeil newSize
  .callIf (x.1.maxAddress < add64 x.1.startAddress newSize)
    "expand: expanded address exceeds maximum\n" x fun x =>
  let oldSize := sub64 x.1.endAddress x.1.startAddress
  match pg.allocKernelPage (sub64 newSize oldSize / memBlockSize) x.2 with
  | none => .stuck
  | some r => .ret () ({ x.1 with endAddress := add64 x.1.startAddress newSize }, r.2)

/-- `alloc`. -/
def allocCalls : (fuel : Nat) → (size pageAlign : Nat) → Heap × σ → Prog (Heap × σ) String Nat
  | 0, _, _, _ => .stuck
  | fuel + 1, size, pageAlign, x =>
    let newSize := add64 (add64 size sizeofHeader) sizeofFooter
    match findSmallestHole newSize pageAlign x.1 with
    | none =>
      let oldLength := sub64 x.1.endAddress x.1.startAddress
      (expandCalls pg (add64 oldLength newSize) x).bind fun _ y =>
        allocCalls fuel size pageAlign (growHole x.1.endAddress oldLength y.1, y.2)
    | some iterator =>
      let r := allocFrom size pageAlign iterator x.1
      .ret r.1 (r.2, x.2)

/-- `contract`. -/
def contractCalls (newSize : Nat) (x : Heap × σ) : Prog (Heap × σ) String Nat :=
  .call "contracting\n" x fun x =>
  .callIf (sub64 x.1.endAddress x.1.startAddress ≤ newSize)
    "contract: contracting, but new_size is larger than old_size\n" x fun x =>
  let newSize := contractSize newSize
  let oldSize := sub64 x.1.endAddress x.1.startAddress
  .ret newSize ({ x.1 with endAddress := add64 x.1.startAddress newSize },
    pg.freeKernelPage (add64 x.1.startAddress newSize) (sub64 oldSize newSize / memBlockSize) x.2)

/-- Unify right: the footer of the merged hole. -/
def freeRightCalls (header footer : Nat) (x : Heap × σ) : Prog (Heap × σ) String Nat :=
  let testHeader := add64 footer sizeofFooter
  if magicAt x.1.mem testHeader = heapMagic ∧ isHoleAt x.1.mem testHeader ≠ 0 then
    let h := onMem (fun m => setSize header (add64 (sizeAt m header) (sizeAt m testHeader)) m) x.1
    let footer := sub64 (add64 testHeader (sizeAt h.mem testHeader)) sizeofFooter
    let i := indexOf testHeader h.index
    .callIf (h.index.size ≤ i) "free: iterator failed to find item to unify\n" (h, x.2) fun x =>
    .ret footer (removeIndex i x.1, x.2)
  else .ret footer x

/-- The contraction of a hole that ends the heap. -/
def freeContractCalls (header footer testHeader : Nat) (x : Heap × σ) :
    Prog (Heap × σ) String Unit :=
  if add64 footer sizeofFooter = x.1.endAddress then
    let oldLength := sub64 x.1.endAddress x.1.startAddress
    (contractCalls pg (sub64 header x.1.startAddress) x).bind fun newLength x =>
    let h := x.1
    let given := sub64 oldLength newLength
    if 0 < sub64 (sizeAt h.mem header) given then
      let h := onMem (fun m => setSize header (sub64 (sizeAt m header) given) m) h
      let footer := sub64 (add64 header (sizeAt h.mem header)) sizeofFooter
      .ret () (onMem (writeFooter footer header) h, x.2)
    else
      let iterator := indexOf testHeader h.index
      .ret () (if iterator < h.index.size then removeIndex iterator h else h, x.2)
  else .ret () x

/-- `free` from "Unify left" on. -/
def freeMergeCalls (header footer : Nat) (x : Heap × σ) : Prog (Heap × σ) String Unit :=
  let l := freeLeft header footer x.1
  (freeRightCalls l.1 footer (l.2.2, x.2)).bind fun f x =>
  (freeContractCalls pg l.1 f (add64 footer sizeofFooter) x).bind fun _ x =>
  .ret () (if l.2.1 then insertIndex l.1 x.1 else x.1, x.2)

/-- `free`. -/
def freeCalls (p : Nat) (x : Heap × σ) : Prog (Heap × σ) String Unit :=
  if p = 0 then .ret () x
  else
    let header := sub64 p sizeofHeader
    let footer := sub64 (add64 header (sizeAt x.1.mem header)) sizeofFooter
    .callIf (magicAt x.1.mem header ≠ heapMagic) "free: header magic bad\n" x fun x =>
    .callIf (magicAt x.1.mem footer ≠ heapMagic) "free: footer magic bad\n" x fun x =>
    freeMergeCalls pg header footer (onMem (setIsHole header 1) x.1, x.2)

end

/-! ## The process -/

/-- A call of the heap on `kheap`. -/
inductive Call
  | alloc (size pageAlign : Nat)
  | free (p : Nat)
  deriving DecidableEq

/-- The heap, the page allocator and the locks as the process `pid` sees them. -/
structure Os (σ : Type) where
  heap : Heap
  pages : σ
  monitorLock : Int
  head : Nat
  masterLock : Bool
  pid : Nat

/-- What a run leaves: the calls of the heap that it started, each with the number of those in
progress at that time, and its result, if it returns. -/
structure Trace (α : Type) where
  started : List (Nat × Call)
  result : Option α

namespace Trace

variable {α β : Type}

def ok (a : α) : Trace α := ⟨[], some a⟩

def stuck : Trace α := ⟨[], none⟩

def bind (r : Trace α) (f : α → Trace β) : Trace β :=
  match r.result with
  | none => ⟨r.started, none⟩
  | some a => ⟨r.started ++ (f a).started, (f a).result⟩

end Trace

section
variable {σ : Type}

def Os.put (os : Os σ) (x : Heap × σ) : Os σ := { os with heap := x.1, pages := x.2 }

section
variable (call : Call → Os σ → Trace (Nat × Os σ))

/-- `kmalloc`. -/
def kmalloc (sz : Nat) (os : Os σ) : Trace (Nat × Os σ) :=
  if sz = 0 then .ok (0, os) else call (.alloc sz 0) os

/-- `kfree`. -/
def kfree (p : Nat) (os : Os σ) : Trace (Os σ) := (call (.free p) os).bind fun r => .ok r.2

/-- A new lock record of the process. -/
def newLock (os : Os σ) : Trace (Nat × Os σ) :=
  (kmalloc call 16 os).bind fun r =>
  let h := onMem (fun m => (m.store r.1 8 r.2.pid).store (r.1 + 8) 8 0) r.2.heap
  .ok (r.1, { r.2 with heap := h })

/-- `lock`. Nobody else holds `master_lock`, so the loop of `spin_lock` ends at once or never; who has
to wait in line for the monitor waits for ever. -/
def lock (os : Os σ) : Trace (Os σ) :=
  if os.monitorLock = -1 then .ok os
  else if os.masterLock then .stuck
  else if os.head = 0 then
    (newLock call { os with masterLock := true }).bind fun r =>
    .ok { r.2 with head := r.1, masterLock := false }
  else if os.heap.mem.load os.head 8 = os.pid then .ok os
  else (newLock call { os with masterLock := true }).bind fun _ => .stuck

/-- `unlock`. -/
def unlock (os : Os σ) : Trace (Os σ) :=
  if os.monitorLock = -1 then .ok os
  else if os.masterLock then .stuck
  else kfree call os.head { os with head := 0 }

/-- `putchar`, without what it does to the screen. -/
def putchar (os : Os σ) : Trace (Os σ) := (lock call os).bind (unlock call)

/-- The loop of `puts`. -/
def putchars : List Char → Os σ → Trace (Os σ)
  | [], os => .ok os
  | _ :: str, os => (putchar call os).bind (putchars str)

/-- `puts`. -/
def putsLocked (str : String) (os : Os σ) : Trace (Os σ) :=
  (lock call os).bind fun os => (putchars call str.toList os).bind (unlock call)

/-- `puts` as `alloc` and `free` know it. -/
def printed (msg : String) (x : Heap × σ) : Heap × σ := (puts msg x.1, x.2)

/-- The calls of `puts` answered. The text counts as printed when the call starts. -/
def runCalls {α : Type} : Prog (Heap × σ) String α → Os σ → Trace (α × Os σ)
  | .ret a x, os => .ok (a, os.put x)
  | .stuck, _ => .stuck
  | .call msg x k, os =>
    (putsLocked call msg (os.put (printed msg x))).bind fun os =>
    runCalls (k (os.heap, os.pages)) os

end

/-- The body of a call. -/
def body (pg : KernelPages σ) (fuel : Nat) : Call → Heap × σ → Prog (Heap × σ) String Nat
  | .alloc size pageAlign, x => allocCalls pg fuel size pageAlign x
  | .free p, x => (freeCalls pg p x).bind fun _ x => .ret 0 x

/-- A call of the heap while `depth` others are in progress. The fuel bounds how deep they go. -/
def heapCall (pg : KernelPages σ) : (fuel depth : Nat) → Call → Os σ → Trace (Nat × Os σ)
  | 0, depth, c, _ => ⟨[(depth, c)], none⟩
  | fuel + 1, depth, c, os =>
    Trace.bind ⟨[(depth, c)], some os⟩ fun os =>
      runCalls (heapCall pg fuel (depth + 1)) (body pg fuel c (os.heap, os.pages)) os

end

/-! ## A `puts` that only prints -/

section
variable {σ : Type} (pg : KernelPages σ)

theorem printed_if (c : Prop) [Decidable c] (msg : String) (h : Heap) (s : σ) :
    (if c then printed msg (h, s) else (h, s)) = (putsIf c msg h, s) := by
  unfold printed putsIf
  split <;> rfl

theorem expandCalls_exec (n : Nat) (h : Heap) (s : σ) :
    (expandCalls pg n (h, s)).exec printed = (expand pg n h s).map fun r => ((), r) := by
  unfold expandCalls expand
  rw [Prog.exec_callIf, printed_if, Prog.exec_callIf, printed_if]
  have hsame : ∀ (c : Prop) [Decidable c] (msg : String) (h : Heap),
      (putsIf c msg h).startAddress = h.startAddress ∧ (putsIf c msg h).endAddress = h.endAddress ∧
        (putsIf c msg h).maxAddress = h.maxAddress := by
    intro c _ msg h
    unfold putsIf puts
    split <;> exact ⟨rfl, rfl, rfl⟩
  dsimp only
  simp only [hsame]
  rcases pg.allocKernelPage (sub64 (pageCeil n) (sub64 h.endAddress h.startAddress) / memBlockSize) s with
    _ | r
  · rfl
  · rfl

/-- **`alloc` with open calls is `alloc`.** -/
theorem allocCalls_exec (fuel size pageAlign : Nat) (h : Heap) (s : σ) :
    (allocCalls pg fuel size pageAlign (h, s)).exec printed = alloc pg fuel size pageAlign h s := by
  induction fuel generalizing h s with
  | zero => rfl
  | succ fuel ih =>
    unfold allocCalls alloc
    dsimp only
    rcases findSmallestHole (add64 (add64 size sizeofHeader) sizeofFooter) pageAlign h with _ | i
    · dsimp only
      rw [Prog.exec_bind, expandCalls_exec]
      rcases expand pg (add64 (sub64 h.endAddress h.startAddress)
        (add64 (add64 size sizeofHeader) sizeofFooter)) h s with _ | r
      · rfl
      · exact ih _ _
    · rfl

theorem contractCalls_exec (n : Nat) (h : Heap) (s : σ) :
    (contractCalls pg n (h, s)).exec printed =
      some ((contract pg n h s).1, (contract pg n h s).2.1, (contract pg n h s).2.2) := by
  unfold contractCalls contract
  unfold Prog.exec
  rw [Prog.exec_callIf]
  unfold printed putsIf puts
  dsimp only
  split <;> rfl

theorem freeRightCalls_exec (header footer : Nat) (h : Heap) (s : σ) :
    (freeRightCalls header footer (h, s)).exec printed =
      some ((freeRight header footer h).1, (freeRight header footer h).2, s) := by
  unfold freeRightCalls freeRight
  dsimp only
  split
  · rw [Prog.exec_callIf, printed_if]
    rfl
  · rfl

theorem freeContractCalls_exec (header footer testHeader : Nat) (h : Heap) (s : σ) :
    (freeContractCalls pg header footer testHeader (h, s)).exec printed =
      some ((), freeContract pg header footer testHeader h s) := by
  unfold freeContractCalls freeContract
  dsimp only
  split
  · rw [Prog.exec_bind, contractCalls_exec]
    dsimp only [Option.bind_some]
    split <;> rfl
  · rfl

theorem freeMergeCalls_exec (header footer : Nat) (h : Heap) (s : σ) :
    (freeMergeCalls pg header footer (h, s)).exec printed =
      some ((), freeMerge pg header footer h s) := by
  unfold freeMergeCalls freeMerge
  dsimp only
  rw [Prog.exec_bind, freeRightCalls_exec]
  dsimp only [Option.bind_some]
  rw [Prog.exec_bind, freeContractCalls_exec]
  rfl

/-- **`free` with open calls is `free`.** -/
theorem freeCalls_exec (p : Nat) (h : Heap) (s : σ) :
    (freeCalls pg p (h, s)).exec printed = some ((), free pg p h s) := by
  unfold freeCalls free
  split
  · rfl
  · dsimp only
    rw [Prog.exec_callIf, printed_if, Prog.exec_callIf, printed_if, freeMergeCalls_exec]

end

end Kheap
