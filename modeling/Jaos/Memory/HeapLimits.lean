import Jaos.Heap.System
import Jaos.Memory.FailedAlloc
import Jaos.Memory.HeapPages

/-!
# The limits of the kernel heap

The heap on the pages of `alloc_kernel_page`, with the callers of `alloc` and `free`. `expand` looks at
two things and acts on neither: it prints a message if the new end is beyond `max_address`, and it drops
the address that `alloc_kernel_page` returns, the null pointer if the frames ran out. `contract` moves
the end back and calls `free_kernel_page`, which gives nothing back.

`heap_limits`: as long as every expansion gets its pages below `max_address` (`Roomy`), the heap ends
below it and is mapped up to its end. `heap_exact`: if in addition no `free` moves the end (`KeepsEnd`),
the pages that the heap has are those up to its end, each on a frame of its own, and the next ones begin
there.
-/

namespace Paging

open Lib Memman Kheap

/-! ## The conditions -/

/-- `alloc_kernel_page(n)` finds a frame for every page. -/
def Machine.Provides (m : Machine) (n : Nat) : Prop := ∀ m', ¬ (Call.kernelPages n).RunsOut m m'

/-- The expansion for a request of `newSize` bytes stays below `max_address` and gets its pages. -/
def ExpandsIn (newSize : Nat) (h : Heap) (m : Machine) : Prop :=
  let len := sub64 h.endAddress h.startAddress
  let n := pageCeil (add64 len newSize)
  add64 h.startAddress n ≤ h.maxAddress ∧ m.Provides (sub64 n len / Kheap.memBlockSize)

/-- Every expansion of the call does. -/
def Roomy (size pageAlign : Nat) (h : Heap) (m : Machine) : Prop :=
  ∀ g t, Retry kernelPages size pageAlign h m g t →
    findSmallestHole (newSize size) pageAlign g = none → ExpandsIn (newSize size) g t

/-- `free(p)` leaves the end of the heap where it is: the merged hole does not end the heap, or the
length that `contract` settles on is the present one. -/
def KeepsEnd (p : Addr) (h : Heap) : Prop :=
  p ≠ 0 → lastOf h p = h.endAddress →
    contractSize (sub64 (startOf h p) h.startAddress) = h.endAddress - h.startAddress

instance (p : Addr) (h : Heap) : Decidable (KeepsEnd p h) := by
  unfold KeepsEnd
  infer_instance

/-! ## The runs -/

/-- The state that `kheap_init` leaves, right after `memman_init`, if it gets its pages below
`max_address`. -/
inductive KheapStart : Kheap.Sys Machine → Prop
  | mk {t : Sys} {mem : Mem} {slots : Nat → Nat} {k : Kernel} {h : Heap} : Init t →
      Paging.kheapInit mem slots t.kernel = some k → k.kheap = some h →
      t.kernel.machine.Provides (kheapInitialSize / Kheap.memBlockSize) →
      t.kernel.machine.nextBlock * 0x1000 + kheapInitialSize ≤ 0xd0000000 → KheapStart ⟨h, k.machine, []⟩

/-- Neither frames run out nor is `max_address` reached. -/
def RoomyStep (s : Kheap.Sys Machine) (op : Kheap.Op) (s' : Kheap.Sys Machine) : Prop :=
  Kheap.Step kernelPages s op s' ∧ ∀ size pageAlign, op = .alloc size pageAlign →
    Roomy size pageAlign s.heap s.pages

/-- A `free` that contracts the heap does so to a header inside of it. -/
def LimitStep (s : Kheap.Sys Machine) (op : Kheap.Op) (s' : Kheap.Sys Machine) : Prop :=
  RoomyStep s op s' ∧ ∀ p, op = .free p → FreesInside p s.heap

/-- A `free` does not contract the heap. -/
def FixedStep (s : Kheap.Sys Machine) (op : Kheap.Op) (s' : Kheap.Sys Machine) : Prop :=
  RoomyStep s op s' ∧ ∀ p, op = .free p → KeepsEnd p s.heap

/-- The pages that `alloc_kernel_page` was asked for, in order. -/
def handedOut (log : List Event) : List Nat :=
  (pageCalls log).reverse.flatMap fun c => List.range' c.1 c.2

/-- The page of the heap's record. -/
def basePage (h : Heap) : Nat := h.startAddress / 0x1000 - 9

/-- **The heap has its limits**: it ends below `max_address`, and every byte of it lies in a page of
`alloc_kernel_page` that is mapped to a frame in use. -/
structure HeapLimits (s : Kheap.Sys Machine) : Prop where
  max : s.heap.endAddress ≤ s.heap.maxAddress
  backed : ∀ a, s.heap.startAddress ≤ a → a < s.heap.endAddress → a / 0x1000 ∈ handedOut s.pages.log ∧
    ∃ n, translate s.pages.phys s.pages.cr3 a = some n ∧ s.pages.frames.memoryMap.bit n = true

/-- A request whose expansion is beyond `max_address` or does not get its frames changes nothing. -/
def Refuses (s : Kheap.Sys Machine) (op : Kheap.Op) (s' : Kheap.Sys Machine) : Prop :=
  ∀ size pageAlign, op = .alloc size pageAlign → ¬ Roomy size pageAlign s.heap s.pages → s'.heap = s.heap

/-- The frames of the heap's pages. -/
def heldFrames (s : Kheap.Sys Machine) : List Nat :=
  (handedOut s.pages.log).filterMap fun q => translate s.pages.phys s.pages.cr3 (q * 0x1000)

/-- **The heap has no page too many**: its pages are those from the one of its record up to its end,
every one of them has its own frame, and an expansion maps new ones from the end on. -/
structure HeapExact (s : Kheap.Sys Machine) : Prop where
  pages : handedOut s.pages.log =
    List.range' (basePage s.heap) ((s.heap.endAddress - basePage s.heap * 0x1000) / 0x1000)
  frames : (heldFrames s).Nodup ∧
    (heldFrames s).length * 0x1000 = s.heap.endAddress - basePage s.heap * 0x1000
  next : ∀ n r, expand kernelPages n s.heap s.pages = some r → ∃ first size,
    pageCalls r.2.log = (first, size) :: pageCalls s.pages.log ∧ first * 0x1000 = s.heap.endAddress

/-! ## The pages handed out -/

section
variable {calls : List (Nat × Nat)} {base next k n : Nat} {log log' : List Event} {m m' : Machine} {p : Addr}

/-- Calls that lead up to `next` without a gap hand out the pages from the first one on. -/
theorem Unbroken.pages (h : Unbroken calls next) (hfirst : calls.getLast? = some (base, k)) :
    base ≤ next ∧ (calls.reverse.flatMap fun c => List.range' c.1 c.2) = List.range' base (next - base) := by
  induction calls generalizing next with
  | nil => cases hfirst
  | cons c calls ih =>
    obtain ⟨first, size⟩ := c
    obtain ⟨hnext, hrest⟩ := h
    rw [List.reverse_cons, List.flatMap_append, List.flatMap_singleton]
    rcases calls with _ | ⟨c, calls⟩
    · cases hfirst
      refine ⟨by omega, ?_⟩
      rw [← hnext, Nat.add_sub_cancel_left]
      rfl
    · obtain ⟨hle, hpages⟩ := ih hrest (by rwa [List.getLast?_cons_cons] at hfirst)
      refine ⟨by omega, ?_⟩
      rw [hpages, show next - base = (first - base) + size by omega]
      conv => lhs; arg 2; rw [show first = base + (first - base) by omega]
      exact List.range'_append_1

theorem pageCalls_suffix (h : log <:+ log') : pageCalls log <:+ pageCalls log' := h.filterMap _

theorem getLast_suffix {α : Type} {l l' : List α} {a : α} (h : l <:+ l') (ha : l.getLast? = some a) :
    l'.getLast? = some a := by
  obtain ⟨pre, rfl⟩ := h
  rw [List.getLast?_append, ha]
  rfl

/-- A call of `alloc_kernel_page` that gets its frames does not fail. -/
theorem Machine.PagesServed.allocKernelPage (hs : m.PagesServed) (hp : m.Provides n)
    (h : Paging.allocKernelPage n m = some (p, m')) (fine : Fine m'.log) : m'.PagesServed := by
  have hlimit := allocKernelPage_limit h fine
  unfold Machine.PagesServed
  rw [allocKernelPage_pageCalls h]
  refine ⟨?_, hs⟩
  obtain ⟨⟨ok, m1⟩, hfrom, he⟩ := Option.map_eq_some_iff.1 h
  cases ok with
  | false => exact absurd hfrom (hp m1)
  | true =>
    cases he
    rw [(allocFrom_pageCalls hfrom).2]
    unfold windowPage at hlimit
    exact (add64_of_lt (by omega)).symm

end

/-! ## Calls of `alloc` and `free` -/

section
variable {size pageAlign fuel : Nat} {h h' : Heap} {m m' : Machine} {p : Addr}

theorem growHole_maxAddress (oldEndAddress oldLength : Nat) (h : Heap) :
    (growHole oldEndAddress oldLength h).maxAddress = h.maxAddress := by
  unfold growHole
  dsimp only
  split <;> rfl

@[simp] theorem putsIf_maxAddress (c : Prop) [Decidable c] (msg : String) (h : Heap) :
    (putsIf c msg h).maxAddress = h.maxAddress := by
  unfold putsIf puts
  split <;> rfl

theorem freeLeft_maxAddress (header footer : Nat) (h : Heap) :
    (freeLeft header footer h).2.2.maxAddress = h.maxAddress := by
  unfold freeLeft
  dsimp only
  split <;> rfl

theorem freeRight_maxAddress (header footer : Nat) (h : Heap) :
    (freeRight header footer h).2.maxAddress = h.maxAddress := by
  unfold freeRight
  dsimp only
  split
  · rw [removeIndex_maxAddress, putsIf_maxAddress, onMem_maxAddress]
  · rfl

theorem freeContract_maxAddress (header footer testHeader : Nat) (h : Heap) (m : Machine) :
    (freeContract kernelPages header footer testHeader h m).1.maxAddress = h.maxAddress := by
  have hcontract : ∀ n, (contract kernelPages n h m).2.1.maxAddress = h.maxAddress := by
    intro n
    exact putsIf_maxAddress _ _ _
  unfold freeContract
  dsimp only
  split
  · split
    · rw [onMem_maxAddress, onMem_maxAddress, hcontract]
    · dsimp only
      split
      · rw [removeIndex_maxAddress, hcontract]
      · rw [hcontract]
  · rfl

/-- `free` keeps `max_address`. -/
theorem free_maxAddress (p : Addr) (h : Heap) (m : Machine) :
    (free kernelPages p h m).1.maxAddress = h.maxAddress := by
  unfold free
  split
  · rfl
  · unfold freeMerge
    dsimp only
    split
    · rw [insertIndex_maxAddress, freeContract_maxAddress, freeRight_maxAddress, freeLeft_maxAddress,
        onMem_maxAddress, putsIf_maxAddress, putsIf_maxAddress]
    · rw [freeContract_maxAddress, freeRight_maxAddress, freeLeft_maxAddress, onMem_maxAddress,
        putsIf_maxAddress, putsIf_maxAddress]

/-- **A call with room**: no call of `alloc_kernel_page` fails, and the end stays below the maximum. -/
theorem Roomy.alloc (hok : Roomy size pageAlign h m)
    (ha : Kheap.alloc kernelPages fuel size pageAlign h m = some (p, h', m')) (fine : Fine m'.log)
    (hs : m.PagesServed) (hmax : h.endAddress ≤ h.maxAddress) :
    m'.PagesServed ∧ h'.maxAddress = h.maxAddress ∧ h'.endAddress ≤ h.maxAddress := by
  obtain ⟨g, i, hr, -, hplace⟩ := alloc_inv ha
  have key : ∀ g t, Retry kernelPages size pageAlign h m g t → Fine t.log →
      t.PagesServed ∧ g.maxAddress = h.maxAddress ∧ g.endAddress ≤ h.maxAddress := by
    intro g t hg
    induction hg with
    | here => exact fun _ => ⟨hs, rfl, hmax⟩
    | @again g t r hg hf he ih =>
      intro fine
      obtain ⟨hbelow, hpages⟩ := hok g t hg hf
      obtain ⟨-, -, -, hmax', hend⟩ := expand_some he
      obtain ⟨r', hr', he⟩ := Option.map_eq_some_iff.1 he
      have hpair : r'.2 = r.2 := congrArg Prod.snd he
      rw [← hpair] at fine ⊢
      obtain ⟨hserved, hconst, -⟩ := ih (fine.before (allocKernelPage_log hr'))
      refine ⟨hserved.allocKernelPage hpages hr' fine, ?_, ?_⟩
      · rw [growHole_maxAddress, hmax', hconst]
      · rw [growHole_endAddress, hend, ← hconst]
        exact hbelow
  obtain ⟨hserved, hconst, hend⟩ := key g m' hr fine
  obtain ⟨-, hend', hmax'⟩ := allocFrom_bounds size pageAlign i g
  rw [hplace] at hend' hmax'
  exact ⟨hserved, hmax'.trans hconst, hend'.trans_le hend⟩

end

/-! ## The invariant -/

/-- The heap on its pages: no call of `alloc_kernel_page` has failed, the first one was that of
`kheap_init`, and `spare` bytes have been given back. -/
structure HeapSound (spare : Nat) (s : Kheap.Sys Machine) : Prop where
  steady : ∃ kpd rs sh, Steady kpd [] rs sh s.pages
  served : s.pages.PagesServed
  backed : HeapBacked spare s.pages s.heap
  first : ∃ n, (pageCalls s.pages.log).getLast? = some (basePage s.heap, n)
  max : s.heap.maxAddress = 0xd0000000
  limit : s.heap.endAddress ≤ s.heap.maxAddress

section
variable {kpd spare size pageAlign fuel : Nat} {rs : List Nat} {sh : Shape} {B : List Addr} {m m' : Machine}
  {h h' : Heap} {p : Addr} {s s' : Kheap.Sys Machine} {op : Kheap.Op}

theorem alloc_log (ha : Kheap.alloc kernelPages fuel size pageAlign h m = some (p, h', m')) :
    m.log <:+ m'.log :=
  alloc_pages (P := fun t => m.log <:+ t.log) (fun _ _ _ hr ih => ih.trans (allocKernelPage_log hr)) ha
    List.suffix_rfl

theorem RoomyStep.log (hs : RoomyStep s op s') : s.pages.log <:+ s'.pages.log := by
  obtain ⟨hs, -⟩ := hs
  cases hs with
  | alloc ha => exact alloc_log ha
  | free hb =>
    rw [free_machine]
  | write hw => exact List.suffix_rfl

/-- A frame of one of the kernel's pages is marked as used, and no other page below 4 GB has it. -/
theorem Steady.kernel_frame {q n : Nat} (R : Steady kpd [] rs sh m) (hq : q < 2 ^ 20)
    (h : translate m.phys m.cr3 (q * 0x1000) = some n) : m.frames.memoryMap.bit n = true ∧
      ∀ q', q' < 2 ^ 20 → translate m.phys m.cr3 (q' * 0x1000) = some n → q' = q := by
  have hlive : ∀ q, ¬ sh.live q := fun q hl => List.not_mem_nil (R.live q hl)
  have hmaps : ∀ q, q < 2 ^ 20 → translate m.phys m.cr3 (q * 0x1000) = some n →
      ∃ f p, sh.place f = some p ∧ p.sub (Addr.pt (q * 0x1000)) = q ∧
        sh.Maps (next m.phys) f (Addr.pt (q * 0x1000)) n := by
    intro q hq ht
    obtain ⟨h4, hf⟩ := page_indices hq
    obtain ⟨f, p, hp, hsub, hm⟩ := R.good.maps_page R.space.place h4 (hlive _) ht
    exact ⟨f, p, hp, hsub.trans hf, hm⟩
  obtain ⟨f, p, hp, hsub, hm⟩ := hmaps q hq h
  refine ⟨(R.good.forest.page _ _ _ hm).1, fun q' hq' h' => ?_⟩
  obtain ⟨f', p', hp', hsub', hm'⟩ := hmaps q' hq' h'
  obtain ⟨rfl, hpt⟩ := R.good.forest.once _ _ _ _ _ hm hm'
  rw [hp, Option.some.injEq] at hp'
  rw [← hp', ← hpt, hsub] at hsub'
  exact hsub'.symm

/-- `kheap_init` makes the heap on its first pages. -/
theorem HeapSound.start (h : KheapStart s) (fine : Fine s.pages.log) : HeapSound 0 s := by
  obtain @⟨t, mem, slots, k, h, hinit, hk, hh, hp, hmax⟩ := h
  have hcalls := hinit.pageCalls
  have hnext := Nat.le_of_lt hinit.nextBlock
  obtain ⟨kpd, rs, sh, R⟩ : ∃ kpd rs sh, Steady kpd [] rs sh t.kernel.machine := by
    obtain ⟨hb, hm⟩ := hinit
    obtain ⟨kpd, sh, R, -⟩ := boot_steady False hb hm (fine.before (kheapInit_log hk))
    exact ⟨kpd, _, sh, R⟩
  dsimp only [kheapInitialSize] at hmax
  have hserved : k.machine.PagesServed := by
    have hinit' := hk
    unfold Paging.kheapInit at hinit'
    rw [if_neg (by decide)] at hinit'
    obtain ⟨⟨p, m1⟩, ha, rfl⟩ := Option.map_eq_some_iff.1 hinit'
    refine Machine.PagesServed.allocKernelPage ?_ hp ha fine
    unfold Machine.PagesServed
    rw [hcalls]
    trivial
  have hback := R.kheapInit_backed hk fine hserved hnext (by omega) hh
  obtain ⟨p, ha, hstart, hend, hmaxAddress⟩ := R.kheapInit_heap hk fine hserved (by omega) hh
  obtain ⟨sh', R', -, -⟩ := R.allocKernelPage ha fine
  refine ⟨⟨kpd, rs, sh', R'⟩, hserved, hback, ⟨0x20, ?_⟩, hmaxAddress, ?_⟩
  · rw [allocKernelPage_pageCalls ha, hcalls, List.getLast?_singleton]
    unfold basePage
    dsimp only
    rw [show h.startAddress / 0x1000 - 9 = t.kernel.machine.nextBlock by omega]
  · dsimp only
    omega

theorem contractSize_lt {n : Nat} (hn : n < 2 ^ 64) : contractSize n < 2 ^ 64 := by
  unfold contractSize
  split
  · decide
  · exact pageCeil_lt hn

/-- A `free` that keeps the end keeps it. -/
theorem KeepsEnd.endAddress {nb : Nat} (hk : KeepsEnd p h) (m : Machine) (R : HeapRange spare h nb)
    (hnb : nb ≤ windowPage) : (free kernelPages p h m).1.endAddress = h.endAddress := by
  by_cases hp : p = 0
  · unfold free
    rw [if_pos hp]
  obtain ⟨-, hend, -⟩ := free_any (h := h) kernelPages m hp
  rw [hend]
  split
  · rename_i hlast
    have htop := R.top
    have hmin := R.minLength
    unfold windowPage at hnb
    rw [hk hp hlast, add64_of_lt (by omega)]
    omega
  · rfl

/-- A `free` that contracts the heap to a header inside of it moves the end down. -/
theorem FreesInside.endAddress_le {nb : Nat} (hp : FreesInside p h) (m : Machine) (R : HeapRange spare h nb)
    (hnb : nb ≤ windowPage) : (free kernelPages p h m).1.endAddress ≤ h.endAddress := by
  have hfree := (R.free hnb hp m).top
  have htop := R.top
  omega

/-- What `free` leaves of it: all but the end. -/
theorem HeapSound.free {spare' : Nat} (H : HeapSound spare s) (live : List Kheap.Block)
    (hrange : HeapRange spare' (Kheap.free kernelPages p s.heap s.pages).1 s.pages.nextBlock)
    (hle : (Kheap.free kernelPages p s.heap s.pages).1.endAddress ≤ s.heap.endAddress) : HeapSound spare'
      ⟨(Kheap.free kernelPages p s.heap s.pages).1, (Kheap.free kernelPages p s.heap s.pages).2, live⟩ := by
  have hstart := free_startAddress p s.heap s.pages
  have hmax := free_maxAddress p s.heap s.pages
  obtain ⟨hsteady, hserved, hback, hfirst, hmax0, hlimit⟩ := H
  rw [free_machine]
  refine ⟨hsteady, hserved, ⟨hrange, ?_, ?_⟩, ?_, hmax.trans hmax0, ?_⟩
  · rw [hstart]
    exact hback.kernel
  · rw [hstart]
    exact hback.mapped
  · unfold basePage
    rw [hstart]
    exact hfirst
  · rw [hmax]
    exact Nat.le_trans hle hlimit

/-- With the end nothing of the heap's place changes. -/
theorem HeapSound.free_keeps (H : HeapSound spare s) (live : List Kheap.Block) (hk : KeepsEnd p s.heap) :
    HeapSound spare
      ⟨(Kheap.free kernelPages p s.heap s.pages).1, (Kheap.free kernelPages p s.heap s.pages).2, live⟩ := by
  obtain ⟨kpd, rs, sh, R⟩ := H.steady
  have hstart := free_startAddress p s.heap s.pages
  have hsame := hk.endAddress s.pages H.backed.range R.limit
  obtain ⟨h1, h2, h3, h4, h5⟩ := H.backed.range
  refine H.free live ⟨?_, ?_, ?_, ?_, ?_⟩ (Nat.le_of_eq hsame)
  · rwa [hstart]
  · rwa [hstart]
  · rwa [hsame]
  · rwa [hstart, hsame]
  · rwa [hsame]

/-- **A step with room** keeps the heap on its pages. -/
theorem HeapSound.step (H : HeapSound spare s) (hs : RoomyStep s op s') (fine : Fine s'.pages.log)
    (hfree : ∀ p, op = .free p → FreesInside p s.heap ∨ KeepsEnd p s.heap) : ∃ spare', HeapSound spare' s' ∧
      ((∀ p, op = .free p → KeepsEnd p s.heap) → spare' = spare) := by
  have hsound := H
  obtain ⟨⟨kpd, rs, sh, R⟩, hserved, hback, ⟨n, hfirst⟩, hmax, hlimit⟩ := H
  obtain ⟨hstep, hroomy⟩ := hs
  cases hstep with
  | @alloc fuel size pageAlign p h' m' ha =>
    obtain ⟨hserved', hmax', hlimit'⟩ := (hroomy size pageAlign rfl).alloc ha fine hserved hlimit
    obtain ⟨sh', R', hmapped⟩ := R.alloc_mapped ha fine
    have hstart := alloc_startAddress ha
    refine ⟨spare, ⟨⟨kpd, rs, sh', R'⟩, hserved', ⟨hback.range.alloc ha fine hserved', ?_, ?_⟩, ⟨n, ?_⟩, ?_, ?_⟩,
      fun _ => rfl⟩
    · rw [hstart]
      exact hback.kernel
    · rw [hstart]
      exact hmapped _ hback.mapped
    · unfold basePage
      rw [hstart]
      exact getLast_suffix (pageCalls_suffix (alloc_log ha)) hfirst
    · rw [hmax', hmax]
    · rw [hmax']
      exact hlimit'
  | @free b hb =>
    by_cases hend : KeepsEnd b.p s.heap
    · exact ⟨spare, hsound.free_keeps _ hend, fun _ => rfl⟩
    · have hin := (hfree b.p rfl).resolve_right hend
      exact ⟨_, hsound.free _ (hback.range.free R.limit hin s.pages)
        (hin.endAddress_le s.pages hback.range R.limit), fun hall => absurd (hall b.p rfl) hend⟩
  | write hw =>
    obtain ⟨⟨h1, h2, h3, h4, h5⟩, hkernel, hmapped⟩ := hback
    exact ⟨spare, ⟨⟨kpd, rs, sh, R⟩, hserved, ⟨⟨h1, h2, h3, h4, h5⟩, hkernel, hmapped⟩, ⟨n, hfirst⟩, hmax, hlimit⟩,
      fun _ => rfl⟩

/-! ## The runs -/

/-- The pages of the heap, all mapped. -/
theorem HeapSound.page {q : Nat} (H : HeapSound spare s) (hlo : basePage s.heap ≤ q)
    (hhi : q < s.pages.nextBlock) (hlt : q < 2 ^ 20) : q ∈ handedOut s.pages.log ∧
      ∃ n, translate s.pages.phys s.pages.cr3 (q * 0x1000) = some n := by
  obtain ⟨k, hfirst⟩ := H.first
  obtain ⟨hle, hpages⟩ := Unbroken.pages H.served hfirst
  refine ⟨?_, H.backed.mapped q hlo hhi hlt⟩
  unfold handedOut
  rw [hpages, List.mem_range'_1]
  omega

theorem HeapSound.limits (H : HeapSound spare s) : HeapLimits s := by
  refine ⟨H.limit, fun a hlo hhi => ?_⟩
  have hlimit := H.limit
  have htop := H.backed.range.top
  have hlow := H.backed.kernel
  rw [H.max] at hlimit
  have hbase : basePage s.heap ≤ a / 0x1000 := by
    unfold basePage
    omega
  obtain ⟨hmem, n, hn⟩ := H.page hbase (by omega) (by omega)
  obtain ⟨kpd, rs, sh, R⟩ := H.steady
  exact ⟨hmem, n, translate_page.symm.trans hn, (R.kernel_frame (by omega) hn).1⟩

/-- Without spare pages the heap has the pages up to its end. -/
theorem HeapSound.exact (H : HeapSound 0 s) : HeapExact s := by
  obtain ⟨k, hfirst⟩ := H.first
  obtain ⟨hle, hpages⟩ := Unbroken.pages H.served hfirst
  have hlimit := H.limit
  have htop := H.backed.range.top
  rw [H.max] at hlimit
  obtain ⟨kpd, rs, sh, R⟩ := H.steady
  -- the frame of each page
  let f : Nat → Nat := fun q => (translate s.pages.phys s.pages.cr3 (q * 0x1000)).getD 0
  have hmapped : ∀ q ∈ handedOut s.pages.log, q < 2 ^ 20 ∧
      translate s.pages.phys s.pages.cr3 (q * 0x1000) = some (f q) := by
    intro q hq
    unfold handedOut at hq
    rw [hpages, List.mem_range'_1] at hq
    obtain ⟨-, n, hn⟩ := H.page hq.1 (by omega) (by omega)
    refine ⟨by omega, ?_⟩
    show _ = some (Option.getD _ 0)
    rw [hn]
    rfl
  have hframes : heldFrames s = (handedOut s.pages.log).map f := by
    unfold heldFrames
    rw [List.filterMap_congr fun q hq => (hmapped q hq).2]
    exact congrFun List.filterMap_eq_map' _
  have hlen : s.heap.endAddress - basePage s.heap * 0x1000 = (s.pages.nextBlock - basePage s.heap) * 0x1000 := by
    omega
  refine ⟨?_, ⟨?_, ?_⟩, fun n r hr => ?_⟩
  · rw [hlen, Nat.mul_div_cancel _ (by decide)]
    exact hpages
  · rw [hframes]
    refine List.Nodup.map_on (fun q hq q' hq' heq => ?_) ?_
    · obtain ⟨hlt, hn⟩ := hmapped q hq
      obtain ⟨hlt', hn'⟩ := hmapped q' hq'
      rw [← heq] at hn'
      exact ((R.kernel_frame hlt hn).2 q' hlt' hn').symm
    · unfold handedOut
      rw [hpages]
      exact List.nodup_range'
  · rw [hframes, List.length_map, hlen]
    unfold handedOut
    rw [hpages, List.length_range']
  · obtain ⟨x, hx, rfl⟩ := Option.map_eq_some_iff.1 hr
    exact ⟨_, _, allocKernelPage_pageCalls hx, by omega⟩

end

/-! ## Running the model -/

section
variable {size pageAlign fuel : Nat} {h : Heap} {m : Machine} {s s' : Kheap.Sys Machine} {op : Kheap.Op}

/-- A call that moves `_kernel_next_block` has found its frames. -/
theorem Machine.provides_of {n : Nat} {p : Addr} {m' : Machine} (h : allocKernelPage n m = some (p, m'))
    (hnb : m'.nextBlock ≠ m.nextBlock) : m.Provides n := by
  intro t ht
  have hnull : (Call.kernelPages n).run m = some (0, t) := Call.run_null ht
  cases h.symm.trans hnull
  exact hnb (allocFrom_pageCalls ht).2

/-- `alloc` with a check of every expansion. -/
def roomyAlloc (size pageAlign : Nat) : (fuel : Nat) → Heap → Machine → Option (Nat × Heap × Machine)
  | 0, _, _ => none
  | fuel + 1, h, m =>
    match findSmallestHole (newSize size) pageAlign h with
    | none =>
      let len := sub64 h.endAddress h.startAddress
      (expand kernelPages (add64 len (newSize size)) h m).bind fun r =>
        if r.1.endAddress ≤ h.maxAddress ∧ r.2.nextBlock ≠ m.nextBlock then
          roomyAlloc size pageAlign fuel (growHole h.endAddress len r.1) r.2
        else none
    | some iterator =>
      let r := Kheap.allocFrom size pageAlign iterator h
      some (r.1, r.2, m)

theorem roomyAlloc_some {x : Nat × Heap × Machine} (hx : roomyAlloc size pageAlign fuel h m = some x) :
    Kheap.alloc kernelPages fuel size pageAlign h m = some x ∧ Roomy size pageAlign h m := by
  induction fuel generalizing h m with
  | zero => cases hx
  | succ fuel ih =>
    unfold roomyAlloc at hx
    unfold Kheap.alloc
    dsimp only at hx ⊢
    rw [← newSize]
    rcases hf : findSmallestHole (newSize size) pageAlign h with _ | i
    · rw [hf] at hx
      obtain ⟨r, hr, hx⟩ := Option.bind_eq_some_iff.1 hx
      obtain ⟨⟨hmax, hnb⟩, hx⟩ := Option.ite_none_right_eq_some.1 hx
      obtain ⟨hrun, hroomy⟩ := ih hx
      refine ⟨by dsimp only; rw [hr]; exact hrun, fun g t hg hnone => ?_⟩
      rcases hg.head with ⟨rfl, rfl⟩ | ⟨-, r', hr', hg⟩
      · obtain ⟨-, -, -, -, hend⟩ := expand_some hr
        obtain ⟨y, hy, rfl⟩ := Option.map_eq_some_iff.1 hr
        exact ⟨hend ▸ hmax, Machine.provides_of hy hnb⟩
      · cases hr.symm.trans hr'
        exact hroomy g t hg hnone
    · rw [hf] at hx
      refine ⟨hx, fun g t hg hnone => ?_⟩
      rcases hg.head with ⟨rfl, rfl⟩ | ⟨hnone', -⟩
      · rw [hf] at hnone
        cases hnone
      · rw [hf] at hnone'
        cases hnone'

/-- The heap of `kheap_init` in cleared memory. -/
def startHeap (memoryMap : List MemoryRegion) : Option (Kheap.Sys Machine) :=
  (memmanInit 0xC0001000 memoryMap (fun _ => 0) (fun _ _ => .zero) loaderPml4).bind fun m =>
    (Paging.kheapInit (fun _ => 0) (fun _ => 0) ⟨m, none⟩).bind fun k =>
      if k.machine.nextBlock ≠ m.nextBlock ∧ m.nextBlock * 0x1000 + kheapInitialSize ≤ 0xd0000000 then
        k.kheap.map fun h => ⟨h, k.machine, []⟩
      else none

theorem kheapStart_of {memoryMap : List MemoryRegion} (hb : Machine.Boot 0xC0001000 memoryMap)
    (h : startHeap memoryMap = some s) : KheapStart s := by
  obtain ⟨m, hm, h⟩ := Option.bind_eq_some_iff.1 h
  obtain ⟨k, hk, h⟩ := Option.bind_eq_some_iff.1 h
  obtain ⟨⟨hnb, hmax⟩, h⟩ := Option.ite_none_right_eq_some.1 h
  obtain ⟨heap, hh, rfl⟩ := Option.map_eq_some_iff.1 h
  refine .mk (.mk hb hm) hk hh ?_ hmax
  unfold Paging.kheapInit at hk
  rw [if_neg (by decide)] at hk
  obtain ⟨x, hx, rfl⟩ := Option.map_eq_some_iff.1 hk
  exact Machine.provides_of hx hnb

/-- One call with room, with at most one expansion. -/
def roomyExec (s : Kheap.Sys Machine) : Kheap.Op → Option (Kheap.Sys Machine)
  | .alloc size pageAlign => (roomyAlloc size pageAlign 2 s.heap s.pages).map fun r =>
      ⟨r.2.1, r.2.2, ⟨r.1, size⟩ :: s.live⟩
  | .free p => (s.live.find? fun b => b.p = p).map fun b =>
      ⟨(free kernelPages b.p s.heap s.pages).1, (free kernelPages b.p s.heap s.pages).2,
        s.live.filter fun e => e.p ≠ b.p⟩
  | .write _ => none

theorem roomyExec_step (h : roomyExec s op = some s') : RoomyStep s op s' := by
  cases op with
  | alloc size pageAlign =>
    obtain ⟨⟨p, k, t⟩, hr, rfl⟩ := Option.map_eq_some_iff.1 h
    obtain ⟨hrun, hroomy⟩ := roomyAlloc_some hr
    refine ⟨.alloc hrun, fun size' pageAlign' hop => ?_⟩
    cases hop
    exact hroomy
  | free p =>
    obtain ⟨b, hb, rfl⟩ := Option.map_eq_some_iff.1 h
    obtain rfl : b.p = p := by simpa using List.find?_some hb
    exact ⟨.free (List.mem_of_find?_eq_some hb), nofun⟩
  | write m => cases h

/-- The heap grows by a block of 0x17000 bytes and contracts again when it is freed. -/
theorem grown_contracted : ∃ s0 s1 s2 : Kheap.Sys Machine, KheapStart s0 ∧
    RoomyStep s0 (.alloc 0x17000 0) s1 ∧ RoomyStep s1 (.free 0xC000D010) s2 ∧ Fine s2.pages.log ∧
    FreesInside 0xC000D010 s1.heap ∧ s1.heap.endAddress = 0xC003C000 ∧ s2.heap.startAddress = 0xC000D000 ∧
    s2.heap.endAddress = 0xC001D000 ∧ (handedOut s2.pages.log).length = 56 ∧
    s2.pages.nextBlock = 0xC003C := by
  have hrun : ((startHeap tinyMap).bind fun s0 => (roomyExec s0 (.alloc 0x17000 0)).bind fun s1 =>
      (roomyExec s1 (.free 0xC000D010)).map fun s2 => decide (Fine s2.pages.log ∧
        FreesInside 0xC000D010 s1.heap ∧ s1.heap.endAddress = 0xC003C000 ∧
        s2.heap.startAddress = 0xC000D000 ∧ s2.heap.endAddress = 0xC001D000 ∧
        (handedOut s2.pages.log).length = 56 ∧ s2.pages.nextBlock = 0xC003C)) = some true := by
    decide +kernel
  obtain ⟨s0, h0, hrun⟩ := Option.bind_eq_some_iff.1 hrun
  obtain ⟨s1, h1, hrun⟩ := Option.bind_eq_some_iff.1 hrun
  obtain ⟨s2, h2, h⟩ := Option.map_eq_some_iff.1 hrun
  exact ⟨s0, s1, s2, kheapStart_of boot_tinyMap h0, roomyExec_step h1, roomyExec_step h2,
    of_decide_eq_true h⟩

end

/-! ## The limits -/

section
variable {s : Kheap.Sys Machine}

/-- 37 blocks from 1 MB on: those that `memman_init` and `kheap_init` need. -/
def tightMap : List MemoryRegion := [⟨0x100000, 0x25000, 1⟩, ⟨0x200000, 0x10000, 1⟩]

theorem boot_tightMap : Machine.Boot 0xC0001000 tightMap where
  regions := by simp [tightMap]
  image := by decide
  imageEnd := by decide
  room := by decide
  image32 := by decide
  phys52 := by decide

end

/-! ## The pages -/

section
variable {s : Kheap.Sys Machine}

/-- The run without contractions. -/
theorem HeapSound.fixed (h : Reach KheapStart FixedStep s) : Fine s.pages.log → HeapSound 0 s := by
  refine h.invariant (fun s => HeapSound.start) fun s op s' ih hs fine => ?_
  obtain ⟨spare', H', hsame⟩ := (ih (fine.before hs.1.log)).step hs.1 fine fun p hp => .inr (hs.2 p hp)
  rwa [← hsame hs.2]

/-- **The pages of the heap** are those up to its end in a run with room in which no `free` moves the end.
After any other `free` they are not. -/
theorem heap_exact (h : Reach KheapStart FixedStep s) (fine : Fine s.pages.log) : HeapExact s ∧
    ∀ p s', Kheap.Step kernelPages s (.free p) s' → (HeapExact s' ↔ KeepsEnd p s.heap) := by
  have H := HeapSound.fixed h fine
  refine ⟨H.exact, fun p s' hs => ?_⟩
  obtain ⟨kpd, rs, sh, R⟩ := H.steady
  cases hs with
  | @free b hb =>
    refine ⟨fun hexact hp hlast => ?_, fun hk => (H.free_keeps _ hk).exact⟩
    have hmin := H.backed.range.minLength
    have htop := H.backed.range.top
    have hlimit := R.limit
    have hkernel := H.backed.kernel
    have hstart := free_startAddress b.p s.heap s.pages
    -- the pages are those of before, so the end would have to be
    have hlen := hexact.frames.2
    unfold heldFrames basePage at hlen
    dsimp only at hlen
    rw [free_machine, hstart] at hlen
    have hlen0 := H.exact.frames.2
    unfold heldFrames basePage at hlen0
    rw [hlen0] at hlen
    obtain ⟨-, hend, -⟩ := free_any (h := s.heap) kernelPages s.pages hp
    rw [if_pos hlast] at hend
    have hcontract := contractSize_lt (sub64_lt (startOf s.heap b.p) s.heap.startAddress)
    generalize contractSize (sub64 (startOf s.heap b.p) s.heap.startAddress) = len at *
    unfold windowPage at hlimit
    dsimp only [heapMinSize] at hmin
    unfold add64 at hend
    omega

/-- The heap grown by a block of 0x17000 bytes. -/
theorem heap_exact_grown : ∃ s, Reach KheapStart FixedStep s ∧ s.heap.endAddress = 0xC003C000 ∧
    HeapExact s := by
  obtain ⟨s0, s1, s2, h0, h1, h2, fine, -, hend, -⟩ := grown_contracted
  have hgrown : Reach KheapStart FixedStep s1 := (Reach.start h0).next ⟨h1, nofun⟩
  exact ⟨s1, hgrown, hend, (heap_exact hgrown (fine.before h2.log)).1⟩

/-- **Grown and contracted**: the heap has 56 pages, 25 of them below its end, and the next ones are
mapped 31 pages above it. -/
theorem heap_not_exact : ∃ s, Reach KheapStart RoomyStep s ∧ Fine s.pages.log ∧
    s.heap.endAddress = 0xC001D000 ∧ (handedOut s.pages.log).length = 56 ∧ s.pages.nextBlock = 0xC003C ∧
    ¬ HeapExact s := by
  obtain ⟨s0, s1, s2, h0, h1, h2, fine, -, -, hstart, hend, hlen, hnext⟩ := grown_contracted
  refine ⟨s2, ((Reach.start h0).next h1).next h2, fine, hend, hlen, hnext, fun hexact => ?_⟩
  have hpages := congrArg List.length hexact.pages
  unfold basePage at hpages
  rw [hlen, List.length_range', hstart, hend] at hpages
  exact absurd hpages (by decide)

end

end Paging
