import Jaos.Disk.DamagedFat
import Jaos.Elf.LoadExecutable
import Jaos.Memory.Proof.UserMemory

/-!
# Starting a program (`kernel/exec.c`, `kernel/elf.c`, `kernel/fat32.c`)

`exec` and `load_executable` from the name of the file on, with the calls of `kmalloc` and `kfree` on the
way. `Kernel` keeps the kernel's memory, the drive, the page tables and, as a ledger, the blocks of the
kernel heap in use. What `kmalloc` answers is open (`Allocator`): null, or a block apart from those in use;
it may map pages of the kernel, but leaves those of the program (`Elf/KernelHeap` has the one of `kheap.c`).
Neither function touches the bytes of the blocks here. A null that is not tested for is address 0 of the
program: what is stored there goes to its first page, or ends in a page fault.

`Misses`: there is no file for the name, as far as `find_file` can tell. `findFile_spec` says that it
answers null exactly then, what it leaves in the ledger, and what at address 0 (`Leaves`).
-/

namespace Exec

open Lib Paging Program Fat32 Elf64

/-! ## The kernel -/

/-- The same pages of the program. -/
def SameUser (m m' : Machine) : Prop :=
  ∀ v, User v → translate m'.phys m'.cr3 v = translate m.phys m.cr3 v ∧ loadByte v m' = loadByte v m

/-- What a function of the kernel that serves itself keeps: memory in order, and the program's pages. -/
def Keeps (m m' : Machine) : Prop :=
  (∃ s, UserSpace s m) → (∃ s, UserSpace s m') ∧ SameUser m m'

/-- The answers of `kmalloc` to the calls, in their order, and the pages that it maps. -/
structure Allocator where
  answer : (call size : Nat) → (live : List Nat) → Nat
  pages : (call : Nat) → Machine → Machine
  fresh : ∀ call size live, answer call size live ≠ 0 → answer call size live ∉ live
  keeps : ∀ call m, Keeps m (pages call m)

/-- The volume and its root directory. `beyond k` is what lies behind the buffer of call `k` of `kmalloc`,
and `fails k` says that `read_sector` reports an error for it. -/
structure Env where
  clusterBegin : Nat
  sectorsPerCluster : BitVec 8
  rootCluster : Nat
  volume : Volume
  sector : volume.bytesPerSector = 512
  beyond : (call : Nat) → Nat → BitVec 32
  fails : (call : Nat) → Bool
  heap : Allocator

def Env.part (e : Env) : Partition := ⟨e.clusterBegin, e.sectorsPerCluster, e.volume.bytesPerSector⟩

structure Kernel where
  mem : Mem
  drive : Ata
  machine : Machine
  live : List Nat
  calls : Nat

/-- `kmalloc`. -/
def kmalloc (e : Env) (size : Nat) (k : Kernel) : Nat × Kernel :=
  let p := e.heap.answer k.calls size k.live
  (p, { k with
    machine := e.heap.pages k.calls k.machine
    live := if p = 0 then k.live else p :: k.live
    calls := k.calls + 1 })

/-- `kfree`. -/
def kfree (p : Nat) (k : Kernel) : Kernel := if p = 0 then k else { k with live := k.live.erase p }

/-- `n` bytes stored from address 0 on. A page fault there has no end. -/
def storeNull (src : Nat → UInt8) (n : Nat) (k : Kernel) : Option Kernel :=
  (memcpy 0 src n k.machine).map fun machine => { k with machine }

/-! ## `kernel/fat32.c` -/

/-- Byte `i` of the sector that `find_next_cluster` reads. -/
def fatByte (v : Volume) (cluster i : Nat) : UInt8 :=
  byteOf (i % 4) (v.word (findNextLba v cluster) (i / 4)).toNat

/-- `find_next_cluster`. A null buffer is read back from where it was stored: the word looked up lies in
the same page. -/
def findNextCluster (e : Env) (cluster : Nat) (k : Kernel) : Option (Nat × Kernel) :=
  if fatEof ≤ cluster then some (0x0fffffff, k)
  else
    let r := kmalloc e e.volume.bytesPerSector.toNat k
    (if r.1 = 0 then storeNull (fatByte e.volume cluster) 512 r.2 else some r.2).map fun k' =>
      if e.fails k.calls then (0, kfree r.1 k')
      else (Fat32.findNextCluster { e.volume with beyond := e.beyond k.calls } cluster, kfree r.1 k')

/-- `read_file`. -/
def readFile (e : Env) : (fuel cluster address : Nat) → Kernel → Option Kernel
  | 0, _, _, _ => none
  | fuel + 1, cluster, address, k =>
    (readCluster e.part cluster address (k.mem, k.drive)).bind fun x =>
      (findNextCluster e cluster { k with mem := x.1, drive := x.2 }).bind fun r =>
        if r.1 < fatEof then readFile e fuel r.1 (address + e.part.clusterSize) r.2 else some r.2

/-- `*file = list[i]`, with the entry at `entry`. -/
def copyEntry (file entry : Nat) (k : Kernel) : Option Kernel :=
  if file = 0 then storeNull (fun j => k.mem (entry + j)) sizeofDirEntry k
  else
    some { k with mem := fun a =>
      if file ≤ a ∧ a < file + sizeofDirEntry then k.mem (entry + (a - file)) else k.mem a }

/-- The loop of `find_file`; `len` is `strlen(name)`. -/
def findLoop (e : Env) (list : Nat) (name : Nat → UInt8) (len : Nat) :
    (fuel cluster : Nat) → Kernel → Option (Nat × Kernel)
  | 0, _, _ => none
  | fuel + 1, cluster, k =>
    (readCluster e.part cluster list (k.mem, k.drive)).bind fun x =>
      let f := findInCluster list name len e.part.entriesPerCluster 0 x.1
      let k := { k with mem := f.2, drive := x.2 }
      match f.1 with
      | some i =>
        let r := kmalloc e sizeofDirEntry k
        (copyEntry r.1 (dirEntryAt list i) r.2).map fun k => (r.1, kfree list k)
      | none =>
        (findNextCluster e cluster k).bind fun r =>
          if r.1 < fatEof then findLoop e list name len fuel r.1 r.2 else some (0, kfree list r.2)

/-- `find_file`. -/
def findFile (e : Env) (name : Nat → UInt8) (fuel : Nat) (k : Kernel) : Option (Nat × Kernel) :=
  let r := kmalloc e e.part.clusterSize k
  if r.1 = 0 then some (0, r.2)
  else (strlen name fuel 0).bind fun len => findLoop e r.1 name len fuel e.rootCluster r.2

/-! ## `kernel/elf.c` and `kernel/exec.c` -/

/-- The exits of `load_executable`: no such file, rejected by `elf_check`, `alloc_page` out of memory, and
the end. -/
inductive Exit
  | missing
  | rejected
  | exhausted
  | loaded (entry : Nat)
  deriving DecidableEq

/-- What `load_executable` returns there. -/
def Exit.value : Exit → Nat
  | .loaded entry => entry
  | _ => 0

/-- The program has no page at address 0, as after `clean_user_space`. -/
def NoPage0 (k : Kernel) : Prop := translate k.machine.phys k.machine.cr3 0 = none

instance (k : Kernel) : Decidable (NoPage0 k) := inferInstanceAs (Decidable (_ = none))

/-- `load_executable`. Reading the file to a null buffer is a page fault where the program has no page
there; if it has one, which is never so in `exec`, `mem` stands for it. -/
def loadExecutable (e : Env) (name : Nat → UInt8) (fuel : Nat) (k : Kernel) : Option (Exit × Kernel) :=
  (findFile e name fuel k).bind fun f =>
    if f.1 = 0 then some (.missing, f.2)
    else
      let b := kmalloc e (bufferSize e.part (fileSize f.2.mem f.1)) f.2
      if b.1 = 0 ∧ NoPage0 b.2 then none
      else
        (readFile e fuel (loadExecutableCluster b.2.mem f.1) b.1 b.2).bind fun k =>
          let image : Mem := fun a => k.mem (add64 b.1 a)
          if elfCheck image ≠ 0 then some (.rejected, k)
          else
            (loadSegments image (ePhnum image) 0 k.machine).map fun r =>
              let k := { k with machine := r.2 }
              if r.1 then (.loaded (eEntry image), kfree b.1 k) else (.exhausted, k)

/-- What the caller gets of a value returned by a function that is not declared there: an `int`. -/
def implicitInt (n : Nat) : Nat :=
  if n % 2 ^ 32 < 2 ^ 31 then n % 2 ^ 32 else n % 2 ^ 32 + (2 ^ 64 - 2 ^ 32)

/-- How `exec` ends: it returns to its caller, or calls `switch_to_user_mode` with the entry that it got
from `load_executable`. -/
inductive Outcome
  | returned (value : Nat)
  | entered (x : Exit) (entry : Nat)
  deriving DecidableEq

/-- `exec`. The name in the entry is its first field; `exec.c` has no declaration of `load_executable`. -/
def exec (e : Env) (name : Nat → UInt8) (fuel : Nat) (k : Kernel) : Option (Outcome × Kernel) :=
  (findFile e name fuel k).bind fun f =>
    if f.1 = 0 then some (.returned 0, f.2)
    else
      (cleanUserSpace f.2.machine).bind fun machine =>
        (loadExecutable e (fun i => f.2.mem (f.1 + i)) fuel { f.2 with machine }).map fun r =>
          (.entered r.1 (implicitInt r.1.value), r.2)

/-! ## What `find_file` looks for -/

/-- The step of the loops through the FAT, with the number of the call of `kmalloc`. -/
def Env.next (e : Env) (call cluster : Nat) : Option Nat :=
  if fatEof ≤ cluster then none
  else if e.fails call then some 0
  else Fat32.next { e.volume with beyond := e.beyond call } cluster

section
variable (e : Env) (name : List UInt8) (list c j : Nat) (k : Kernel)

/-- Entry `t` of the buffer after cluster `c` was read to it: the first sector has 16 entries. -/
def seen (t : Nat) : List UInt8 :=
  if t < 16 then diskEntry e.part k.drive c t else entryBytes k.mem (dirEntryAt list t)

/-- One of them begins with the name. -/
def Holds : Prop := ∃ t, t < e.part.entriesPerCluster ∧ Starts name (seen e list c k t)

/-- The cluster that is read after `j` steps from `c` on holds such an entry. -/
def Hits : Prop := ∃ c', visit e.next k.calls c j = some c' ∧ Holds e name list c' k

/-- It is the first one that does. -/
def FirstHit : Prop := Hits e name list c j k ∧ ∀ i, i < j → ¬ Hits e name list c i k

/-- The chain ends, and none does. -/
def NoHit : Prop := (∃ n, visit e.next k.calls c n = none) ∧ ∀ j, ¬ Hits e name list c j k

/-- Entry `t` is the first one in the buffer that begins with the name. -/
def FirstEntry (t : Nat) : Prop :=
  t < e.part.entriesPerCluster ∧ Starts name (seen e list c k t) ∧
    ∀ t', t' < t → ¬ Starts name (seen e list c k t')

/-- **There is no file for the name**: there is no memory for the buffer, no entry begins with the name,
or there is no memory for the copy of the first one that does. -/
def Misses : Prop :=
  let r := kmalloc e e.part.clusterSize k
  r.1 = 0 ∨ NoHit e name r.1 e.rootCluster r.2 ∨
    ∃ j, FirstHit e name r.1 e.rootCluster j r.2 ∧
      e.heap.answer (r.2.calls + j) sizeofDirEntry r.2.live = 0

/-! ## What is stored at address 0 -/

/-- By `find_next_cluster` with number `call` of `kmalloc`: the sector, if that is null. -/
def lookupAtNull (live : List Nat) (call : Nat) : Nat → Option UInt8 := fun v =>
  if c < fatEof ∧ e.heap.answer call e.volume.bytesPerSector.toNat live = 0 ∧ v < 512 then
    some (fatByte e.volume c v)
  else none

/-- By the copy of an entry, if there is no memory for it. -/
def copyAtNull (live : List Nat) (call : Nat) (entry : List UInt8) : Nat → Option UInt8 := fun v =>
  if e.heap.answer call sizeofDirEntry live = 0 then entry[v]? else none

/-- By the loop of `find_file` from cluster `c` on; what is stored later comes first. -/
inductive LoopLeaves : (call c : Nat) → (Nat → Option UInt8) → Prop
  | found {call c t} : FirstEntry e name list c k t →
    LoopLeaves call c (copyAtNull e k.live call ((seen e list c k t).set 10 0))
  | done {call c} : ¬ Holds e name list c k → e.next call c = none →
    LoopLeaves call c (lookupAtNull e c k.live call)
  | next {call c c' w} : ¬ Holds e name list c k → e.next call c = some c' → LoopLeaves (call + 1) c' w →
    LoopLeaves call c fun v => (w v).or (lookupAtNull e c k.live call v)

/-- By `find_file`. -/
def Leaves (w : Nat → Option UInt8) : Prop :=
  let r := kmalloc e e.part.clusterSize k
  if r.1 = 0 then w = fun _ => none else LoopLeaves e name r.1 r.2 r.2.calls e.rootCluster w

end

/-- The bytes of `w` stored in the memory of the program, whose pages stay where they are. -/
structure Stored (w : Nat → Option UInt8) (m m' : Machine) : Prop where
  space : ∃ s, UserSpace s m'
  pages : ∀ v, User v → translate m'.phys m'.cr3 v = translate m.phys m.cr3 v
  byte : ∀ v : Nat, User v → loadByte v m' = (w v).or (loadByte v m)

def Writes (w : Nat → Option UInt8) (m m' : Machine) : Prop := (∃ s, UserSpace s m) → Stored w m m'

/-! ## Memory -/

section
variable {e : Env} {name : List UInt8} {list c c' n fuel size p file call : Nat} {live : List Nat}
  {k k' : Kernel} {m m' m'' : Machine} {w w' : Nat → Option UInt8} {src : Nat → UInt8}

theorem Keeps.refl (m : Machine) : Keeps m m := fun h => ⟨h, fun _ _ => ⟨rfl, rfl⟩⟩

theorem Keeps.writes (h : Keeps m m') : Writes (fun _ => none) m m' := fun hm =>
  ⟨(h hm).1, fun v hv => ((h hm).2 v hv).1, fun v hv => ((h hm).2 v hv).2⟩

theorem Writes.trans (h : Writes w m m') (h' : Writes w' m' m'') :
    Writes (fun v => (w' v).or (w v)) m m'' := by
  intro hm
  have hs := h hm
  have hs' := h' hs.space
  refine ⟨hs'.space, fun v hv => (hs'.pages v hv).trans (hs.pages v hv), fun v hv => ?_⟩
  rw [hs'.byte v hv, hs.byte v hv, Option.or_assoc]

/-- Nothing is stored first or last. -/
theorem Keeps.trans_writes (h : Keeps m m') (h' : Writes w m' m'') : Writes w m m'' := by
  have hw := h.writes.trans h'
  simpa only [Option.or_none] using hw

theorem kmalloc_keeps : Keeps k.machine (kmalloc e size k).2.machine := e.heap.keeps _ _

@[simp] theorem kfree_machine : (kfree p k).machine = k.machine := by
  unfold kfree
  split <;> rfl

@[simp] theorem kfree_mem : (kfree p k).mem = k.mem := by
  unfold kfree
  split <;> rfl

@[simp] theorem kfree_drive : (kfree p k).drive = k.drive := by
  unfold kfree
  split <;> rfl

@[simp] theorem kfree_calls : (kfree p k).calls = k.calls := by
  unfold kfree
  split <;> rfl

/-- All is the same but the machine. -/
structure SameKernel (k k' : Kernel) : Prop where
  mem : k'.mem = k.mem
  drive : k'.drive = k.drive
  live : k'.live = k.live
  calls : k'.calls = k.calls

/-- A store through null changes the memory of the program only. -/
theorem storeNull_spec (hn : n < 2 ^ 31) (h : storeNull src n k = some k') : SameKernel k k' ∧
    Writes (fun v => if v < n then some (src v) else none) k.machine k'.machine := by
  obtain ⟨m, hm, rfl⟩ := Option.map_eq_some_iff.1 h
  refine ⟨⟨rfl, rfl, rfl, rfl⟩, fun ⟨s, U⟩ => ?_⟩
  have hlen : copyLength n = n := if_pos hn
  have hc := U.memcpy (by rw [hlen]; omega) hm
  rw [hlen] at hc
  refine ⟨⟨s, hc.space⟩, hc.pages, fun v hv => ?_⟩
  rw [hc.byte v hv]
  by_cases hlt : v < n
  · rw [if_pos ⟨Nat.zero_le _, by omega⟩, if_pos hlt]
    rfl
  · rw [if_neg (by omega), if_neg hlt]
    rfl

/-- It gets to its end where there is a page at address 0. -/
theorem storeNull_total (hn : n ≤ 0x1000) (hm : ∃ s, UserSpace s k.machine) (h : ¬ NoPage0 k) :
    ∃ k', storeNull src n k = some k' := by
  obtain ⟨s, U⟩ := hm
  have hpage : ∀ i, i < n → (Paging.translate k.machine.phys k.machine.cr3 (0 + i)).isSome := by
    intro i hi
    have hsame : Addr.indices (0 + i) = Addr.indices 0 := by
      unfold Addr.indices Addr.pml4 Addr.pdp Addr.pd Addr.pt
      simp only [List.cons.injEq, and_true]
      omega
    rw [Paging.translate, hsame]
    exact Option.isSome_iff_ne_none.2 h
  obtain ⟨m, hm⟩ : ∃ m, Paging.memcpy 0 src n k.machine = some m :=
    U.memcpy_total (by omega) (by omega) hpage
  exact ⟨_, by rw [storeNull, hm]; rfl⟩

/-- A block that is freed at once. -/
theorem kfree_kmalloc (h : k'.live = (kmalloc e size k).2.live) :
    (kfree (kmalloc e size k).1 k').live = k.live := by
  unfold kfree
  by_cases h0 : (kmalloc e size k).1 = 0
  · rw [if_pos h0, h]
    exact if_pos h0
  · rw [if_neg h0]
    have hnew : k'.live = (kmalloc e size k).1 :: k.live := h.trans (if_neg h0)
    show k'.live.erase _ = _
    rw [hnew, List.erase_cons_head]

/-! ## `find_next_cluster` -/

/-- Nothing is stored there if there is a buffer. -/
theorem lookupAtNull_of_ne (h : e.heap.answer call e.volume.bytesPerSector.toNat live ≠ 0) :
    lookupAtNull e c live call = fun _ => none := funext fun _ => if_neg fun h' => h h'.2.1

/-- What `find_next_cluster` leaves. -/
structure Looked (e : Env) (c : Nat) (k : Kernel) (r : Nat × Kernel) : Prop where
  next : (if r.1 < fatEof then some r.1 else none) = e.next k.calls c
  live : r.2.live = k.live
  mem : r.2.mem = k.mem
  drive : r.2.drive = k.drive
  calls : r.1 < fatEof → r.2.calls = k.calls + 1
  writes : Writes (lookupAtNull e c k.live k.calls) k.machine r.2.machine

theorem findNextCluster_spec {r : Nat × Kernel} (h : findNextCluster e c k = some r) : Looked e c k r := by
  unfold findNextCluster at h
  by_cases hc : fatEof ≤ c
  · rw [if_pos hc] at h
    cases h
    refine ⟨?_, rfl, rfl, rfl, fun h => absurd h (show ¬ 0x0fffffff < fatEof by decide), ?_⟩
    · rw [Env.next, if_pos hc]
      rfl
    · have hnone : lookupAtNull e c k.live k.calls = fun _ => none := by
        funext v
        exact if_neg (by omega)
      rw [hnone]
      exact (Keeps.refl _).writes
  · rw [if_neg hc] at h
    obtain ⟨k1, hk1, rfl⟩ := Option.map_eq_some_iff.1 h
    -- the sector is stored
    have hstore : SameKernel (kmalloc e e.volume.bytesPerSector.toNat k).2 k1 ∧
        Writes (lookupAtNull e c k.live k.calls) k.machine k1.machine := by
      by_cases h0 : (kmalloc e e.volume.bytesPerSector.toNat k).1 = 0
      · rw [if_pos h0] at hk1
        obtain ⟨he, hw⟩ := storeNull_spec (by decide) hk1
        refine ⟨he, ?_⟩
        have hsame : lookupAtNull e c k.live k.calls =
            fun v => if v < 512 then some (fatByte e.volume c v) else none := by
          funext v
          have h0 : e.heap.answer k.calls e.volume.bytesPerSector.toNat k.live = 0 := h0
          unfold lookupAtNull
          simp only [h0, Nat.lt_of_not_le hc, true_and]
        rw [hsame]
        exact kmalloc_keeps.trans_writes hw
      · rw [if_neg h0] at hk1
        cases hk1
        refine ⟨⟨rfl, rfl, rfl, rfl⟩, ?_⟩
        rw [lookupAtNull_of_ne h0]
        exact kmalloc_keeps.writes
    obtain ⟨hs, hw⟩ := hstore
    have hlive := kfree_kmalloc hs.live
    have hnext : Env.next e k.calls c = if e.fails k.calls then some 0
        else Fat32.next { e.volume with beyond := e.beyond k.calls } c := if_neg hc
    split
    · rename_i hf
      exact ⟨hnext ▸ (if_pos hf).symm, hlive, by rw [kfree_mem, hs.mem]; rfl,
        by rw [kfree_drive, hs.drive]; rfl, fun _ => by rw [kfree_calls, hs.calls]; rfl, by rwa [kfree_machine]⟩
    · rename_i hf
      exact ⟨hnext ▸ (if_neg hf).symm, hlive, by rw [kfree_mem, hs.mem]; rfl,
        by rw [kfree_drive, hs.drive]; rfl, fun _ => by rw [kfree_calls, hs.calls]; rfl, by rwa [kfree_machine]⟩

/-- It ends if what it stores at address 0 finds a page there. -/
theorem findNextCluster_total (hm : ∃ s, UserSpace s k.machine)
    (h : ∀ v b, lookupAtNull e c k.live k.calls v = some b → ¬ NoPage0 k) :
    ∃ r, findNextCluster e c k = some r := by
  unfold findNextCluster
  by_cases hc : fatEof ≤ c
  · rw [if_pos hc]
    exact ⟨_, rfl⟩
  · rw [if_neg hc]
    dsimp only
    by_cases h0 : (kmalloc e e.volume.bytesPerSector.toNat k).1 = 0
    · obtain ⟨hm1, hs⟩ := @kmalloc_keeps e e.volume.bytesPerSector.toNat k hm
      have hpage : ¬ NoPage0 (kmalloc e e.volume.bytesPerSector.toNat k).2 := by
        unfold NoPage0
        rw [(hs 0 (show 0 < 0xC0000000 by decide)).1]
        exact h 0 _ (if_pos ⟨Nat.lt_of_not_le hc, h0, by decide⟩)
      obtain ⟨k1, hk1⟩ := @storeNull_total 512 _ (fatByte e.volume c) (by decide) hm1 hpage
      rw [if_pos h0, hk1]
      exact ⟨_, rfl⟩
    · rw [if_neg h0]
      exact ⟨_, rfl⟩

/-! ## The search -/

/-- What a round of `find_file` leaves for the next ones: the disk, the blocks in use, and behind the first
sector of the buffer the same entries but for byte 10. -/
structure SameSearch (list : Nat) (k k' : Kernel) : Prop where
  data : k'.drive.data = k.drive.data
  live : k'.live = k.live
  entries : ∀ t, 16 ≤ t → (entryBytes k'.mem (dirEntryAt list t)).set 10 0 =
    (entryBytes k.mem (dirEntryAt list t)).set 10 0

theorem SameSearch.seen_eq {t : Nat} (h : SameSearch list k k') :
    (seen e list c k' t).set 10 0 = (seen e list c k t).set 10 0 := by
  unfold seen
  split
  · rw [diskEntry_congr h.data]
  · exact h.entries t (by omega)

theorem SameSearch.starts {t : Nat} (h : SameSearch list k k') :
    Starts name (seen e list c k' t) ↔ Starts name (seen e list c k t) := by
  rw [← starts_set (b := 0), h.seen_eq, starts_set]

theorem SameSearch.holds (h : SameSearch list k k') : Holds e name list c k' ↔ Holds e name list c k :=
  exists_congr fun _ => and_congr_right fun _ => h.starts

theorem SameSearch.first {t : Nat} (h : SameSearch list k k') :
    FirstEntry e name list c k' t ↔ FirstEntry e name list c k t :=
  and_congr_right fun _ => and_congr h.starts (forall₂_congr fun _ _ => not_congr h.starts)

/-- The next rounds leave the same at address 0. -/
theorem SameSearch.leaves (h : SameSearch list k k') (hw : LoopLeaves e name list k' call c w) :
    LoopLeaves e name list k call c w := by
  induction hw with
  | found hf =>
    rw [h.seen_eq, h.live]
    exact .found (h.first.1 hf)
  | done hno hn =>
    rw [h.live]
    exact .done (fun hh => hno (h.holds.2 hh)) hn
  | next hno hn _ ih =>
    rw [h.live]
    exact .next (fun hh => hno (h.holds.2 hh)) hn ih

/-- The entries of the buffer after a cluster was read to it. -/
theorem entryBytes_seen (t : Nat) :
    entryBytes (overlay k.mem list (sentByte k.drive (e.part.lba c))) (dirEntryAt list t) =
      seen e list c k t := by
  unfold seen
  split
  · exact overlay_entry ‹_›
  · exact overlay_entry_ne (by omega)

theorem Holds.first (h : Holds e name list c k) : ∃ t, FirstEntry e name list c k t := by
  obtain ⟨t, ht, hs⟩ := h
  induction t using Nat.strongRecOn with
  | ind t ih =>
    by_cases hall : ∀ t', t' < t → ¬ Starts name (seen e list c k t')
    · exact ⟨t, ht, hs, hall⟩
    · push Not at hall
      obtain ⟨t', hlt, hs'⟩ := hall
      exact ih t' hlt (by omega) hs'

/-- **A round that finds an entry** copies it, with a zero in byte 10. -/
theorem findLoop_hit {t : Nat} (h0 : ∀ b ∈ name, b ≠ 0) (h : FirstEntry e name list c k t) :
    ∃ k1 : Kernel, k1.machine = k.machine ∧ k1.live = k.live ∧ k1.calls = k.calls ∧
      entryBytes k1.mem (dirEntryAt list t) = (seen e list c k t).set 10 0 ∧ ∀ fuel,
      findLoop e list (cstring name) (name.length + 1) (fuel + 1) c k =
        (copyEntry (kmalloc e sizeofDirEntry k1).1 (dirEntryAt list t) (kmalloc e sizeofDirEntry k1).2).map
          fun k2 => ((kmalloc e sizeofDirEntry k1).1, kfree list k2) := by
  obtain ⟨hlt, hs, hfirst⟩ := h
  obtain ⟨d', hread, -⟩ := readCluster_eq e.part c list k.mem k.drive
  have hfind : findInCluster list (cstring name) (name.length + 1) e.part.entriesPerCluster 0
      (overlay k.mem list (sentByte k.drive (e.part.lba c))) =
      (some t, cut list 0 (t + 1 - 0) (overlay k.mem list (sentByte k.drive (e.part.lba c)))) :=
    findInCluster_some h0 (Nat.zero_le t) (by omega)
      (fun t' _ ht' => by rw [entryBytes_seen]; exact hfirst t' ht') (by rwa [entryBytes_seen])
  refine ⟨{ k with
    mem := cut list 0 (t + 1 - 0) (overlay k.mem list (sentByte k.drive (e.part.lba c)))
    drive := d' }, rfl, rfl, rfl, ?_, fun fuel => ?_⟩
  · rw [cut_entry (by omega), entryBytes_seen]
  · rw [findLoop, hread, Option.bind_some]
    dsimp only
    rw [hfind]

/-- A round that finds none goes on to the next cluster. -/
theorem findLoop_miss (h0 : ∀ b ∈ name, b ≠ 0) (h : ¬ Holds e name list c k) :
    ∃ k1, SameSearch list k k1 ∧ k1.machine = k.machine ∧ k1.calls = k.calls ∧ ∀ fuel,
      findLoop e list (cstring name) (name.length + 1) (fuel + 1) c k =
        (findNextCluster e c k1).bind fun r =>
          if r.1 < fatEof then findLoop e list (cstring name) (name.length + 1) fuel r.1 r.2
          else some (0, kfree list r.2) := by
  obtain ⟨d', hread, hdata⟩ := readCluster_eq e.part c list k.mem k.drive
  have hfind : findInCluster list (cstring name) (name.length + 1) e.part.entriesPerCluster 0
      (overlay k.mem list (sentByte k.drive (e.part.lba c))) =
      (none, cut list 0 e.part.entriesPerCluster (overlay k.mem list (sentByte k.drive (e.part.lba c)))) := by
    refine findInCluster_none h0 fun t _ ht hs => ?_
    rw [entryBytes_seen] at hs
    exact h ⟨t, by omega, hs⟩
  refine ⟨{ k with
    mem := cut list 0 e.part.entriesPerCluster (overlay k.mem list (sentByte k.drive (e.part.lba c)))
    drive := d' }, ⟨hdata, rfl, fun t ht => ?_⟩, rfl, rfl, fun fuel => ?_⟩
  · show (entryBytes (cut _ _ _ _) _).set 10 0 = _
    by_cases hlt : 0 ≤ t ∧ t < 0 + e.part.entriesPerCluster
    · rw [cut_entry hlt, List.set_set, overlay_entry_ne ht]
    · rw [cut_entry_ne hlt, overlay_entry_ne ht]
  · rw [findLoop, hread, Option.bind_some]
    dsimp only
    rw [hfind]

/-- `*file = list[i]` stores the entry at address 0, or in the block. -/
theorem copyEntry_spec {t : Nat} {entry : List UInt8} (hent : entryBytes k.mem (dirEntryAt list t) = entry)
    (h : copyEntry (kmalloc e sizeofDirEntry k).1 (dirEntryAt list t) (kmalloc e sizeofDirEntry k).2 =
      some k') : k'.live = (kmalloc e sizeofDirEntry k).2.live ∧
        Writes (copyAtNull e k.live k.calls entry) k.machine k'.machine := by
  subst hent
  unfold copyEntry at h
  by_cases hfile : (kmalloc e sizeofDirEntry k).1 = 0
  · rw [if_pos hfile] at h
    obtain ⟨hs, hw⟩ := storeNull_spec (by decide) h
    refine ⟨hs.live, ?_⟩
    have hsame : copyAtNull e k.live k.calls (entryBytes k.mem (dirEntryAt list t)) = fun v =>
        if v < sizeofDirEntry then some (k.mem (dirEntryAt list t + v)) else none := by
      funext v
      refine (if_pos hfile).trans ?_
      by_cases hv : v < sizeofDirEntry
      · rw [entryBytes_getElem? hv, if_pos hv]
      · rw [if_neg hv, List.getElem?_eq_none (by rw [entryBytes_length]; omega)]
    rw [hsame]
    exact kmalloc_keeps.trans_writes hw
  · rw [if_neg hfile] at h
    cases h
    refine ⟨rfl, ?_⟩
    have hnone : copyAtNull e k.live k.calls (entryBytes k.mem (dirEntryAt list t)) = fun _ => none := by
      funext v
      exact if_neg hfile
    rw [hnone]
    have hkept : Keeps k.machine (kmalloc e sizeofDirEntry k).2.machine := kmalloc_keeps
    exact hkept.writes

theorem copyEntry_total {t : Nat} {entry : List UInt8} (hent : entryBytes k.mem (dirEntryAt list t) = entry)
    (hm : ∃ s, UserSpace s k.machine)
    (h : ∀ v b, copyAtNull e k.live k.calls entry v = some b → ¬ NoPage0 k) :
    ∃ k', copyEntry (kmalloc e sizeofDirEntry k).1 (dirEntryAt list t) (kmalloc e sizeofDirEntry k).2 =
      some k' := by
  subst hent
  unfold copyEntry
  by_cases hfile : (kmalloc e sizeofDirEntry k).1 = 0
  · obtain ⟨hm1, hs⟩ := @kmalloc_keeps e sizeofDirEntry k hm
    have hpage : ¬ NoPage0 (kmalloc e sizeofDirEntry k).2 := by
      unfold NoPage0
      rw [(hs 0 (show 0 < 0xC0000000 by decide)).1]
      exact h 0 _ ((if_pos hfile).trans (entryBytes_getElem? (by decide)))
    rw [if_pos hfile]
    exact storeNull_total (by decide) hm1 hpage
  · rw [if_neg hfile]
    exact ⟨_, rfl⟩

/-! ## The rounds after one that finds nothing -/

section
variable {j : Nat}

theorem Hits.succ_iff (hs : SameSearch list k k') (hnext : e.next k.calls c = some c')
    (hcalls : k'.calls = k.calls + 1) : Hits e name list c (j + 1) k ↔ Hits e name list c' j k' := by
  unfold Hits
  rw [hcalls, visit, hnext, Option.bind_some]
  exact exists_congr fun x => and_congr_right fun _ => hs.holds.symm

theorem Hits.zero_iff : Hits e name list c 0 k ↔ Holds e name list c k := by
  unfold Hits
  rw [visit]
  simp

theorem FirstHit.zero (h : Holds e name list c k) : FirstHit e name list c 0 k :=
  ⟨Hits.zero_iff.2 h, fun _ hi => absurd hi (Nat.not_lt_zero _)⟩

theorem FirstHit.succ_iff (hno : ¬ Holds e name list c k) (hs : SameSearch list k k')
    (hnext : e.next k.calls c = some c') (hcalls : k'.calls = k.calls + 1) :
    FirstHit e name list c (j + 1) k ↔ FirstHit e name list c' j k' := by
  unfold FirstHit
  rw [Hits.succ_iff hs hnext hcalls]
  refine and_congr_right fun _ => ⟨fun h i hi hh => h (i + 1) (by omega) ((Hits.succ_iff hs hnext hcalls).2 hh),
    fun h i hi hh => ?_⟩
  cases i with
  | zero => exact hno (Hits.zero_iff.1 hh)
  | succ i => exact h i (by omega) ((Hits.succ_iff hs hnext hcalls).1 hh)

theorem FirstHit.unique {i : Nat} (h : FirstHit e name list c i k) (h' : FirstHit e name list c j k) :
    i = j := by
  rcases Nat.lt_trichotomy i j with hlt | he | hgt
  · exact absurd h.1 (h'.2 i hlt)
  · exact he
  · exact absurd h'.1 (h.2 j hgt)

theorem NoHit.last (hno : ¬ Holds e name list c k) (hnext : e.next k.calls c = none) :
    NoHit e name list c k := by
  refine ⟨⟨1, by rw [visit, hnext]; rfl⟩, fun j hh => ?_⟩
  cases j with
  | zero => exact hno (Hits.zero_iff.1 hh)
  | succ j =>
    obtain ⟨c', hc', -⟩ := hh
    rw [visit, hnext] at hc'
    cases hc'

theorem NoHit.succ_iff (hno : ¬ Holds e name list c k) (hs : SameSearch list k k')
    (hnext : e.next k.calls c = some c') (hcalls : k'.calls = k.calls + 1) :
    NoHit e name list c k ↔ NoHit e name list c' k' := by
  unfold NoHit
  refine and_congr ⟨?_, ?_⟩ ⟨fun h j hh => h (j + 1) ((Hits.succ_iff hs hnext hcalls).2 hh), fun h j hh => ?_⟩
  · rintro ⟨n, hn⟩
    cases n with
    | zero => cases hn
    | succ n =>
      rw [visit, hnext, Option.bind_some, ← hcalls] at hn
      exact ⟨n, hn⟩
  · rintro ⟨n, hn⟩
    refine ⟨n + 1, ?_⟩
    rw [visit, hnext, Option.bind_some, ← hcalls]
    exact hn
  · cases j with
    | zero => exact hno (Hits.zero_iff.1 hh)
    | succ j => exact h j ((Hits.succ_iff hs hnext hcalls).1 hh)

end

/-! ## The loop of `find_file` -/

/-- A copy of the first entry that begins with the name goes to `file`, the answer of `kmalloc` there. -/
def Found (e : Env) (name : List UInt8) (list c : Nat) (k : Kernel) (file : Nat) : Prop :=
  ∃ j, FirstHit e name list c j k ∧ file = e.heap.answer (k.calls + j) sizeofDirEntry k.live

/-- How the loop may have ended. -/
structure Searched (e : Env) (name : List UInt8) (list c : Nat) (k : Kernel) (file : Nat) (k' : Kernel) :
    Prop where
  result : Found e name list c k file ∨ NoHit e name list c k ∧ file = 0
  leaves : ∃ w, LoopLeaves e name list k k.calls c w ∧ Writes w k.machine k'.machine
  live : ∃ k1 : Kernel, k'.live = (kfree list k1).live ∧
    k1.live = if file = 0 then k.live else file :: k.live

/-- The search after a round that finds nothing. -/
theorem Searched.before {k1 : Kernel} (hno : ¬ Holds e name list c k) (hs : SameSearch list k k1)
    (hnext : e.next k.calls c = some c') (hcalls : k1.calls = k.calls + 1)
    (hw : Writes (lookupAtNull e c k.live k.calls) k.machine k1.machine)
    (h : Searched e name list c' k1 file k') : Searched e name list c k file k' := by
  obtain ⟨hres, ⟨w, hleaves, hw'⟩, k2, h2, hlive⟩ := h
  refine ⟨?_, ⟨_, .next hno hnext (hcalls ▸ hs.leaves hleaves), hw.trans hw'⟩, k2, h2, by rw [hlive, hs.live]⟩
  rcases hres with ⟨j, hfirst, hfile⟩ | ⟨hnohit, hfile⟩
  · refine .inl ⟨j + 1, (FirstHit.succ_iff hno hs hnext hcalls).2 hfirst, ?_⟩
    rw [hfile, hcalls, hs.live, Nat.add_assoc, Nat.add_comm 1]
  · exact .inr ⟨(NoHit.succ_iff hno hs hnext hcalls).2 hnohit, hfile⟩

/-- **The loop of `find_file`**: what it returns, and what it leaves. -/
theorem findLoop_spec (h0 : ∀ b ∈ name, b ≠ 0)
    (hrun : findLoop e list (cstring name) (name.length + 1) fuel c k = some (file, k')) :
    Searched e name list c k file k' := by
  induction fuel generalizing c k with
  | zero => cases hrun
  | succ fuel ih =>
    by_cases hholds : Holds e name list c k
    · obtain ⟨t, ht⟩ := hholds.first
      obtain ⟨k1, hm, hl, hc, hent, hgo⟩ := findLoop_hit h0 ht
      rw [hgo] at hrun
      obtain ⟨k2, hk2, he⟩ := Option.map_eq_some_iff.1 hrun
      obtain ⟨rfl, rfl⟩ := Prod.mk.inj he
      obtain ⟨hlive, hw⟩ := copyEntry_spec hent hk2
      rw [hm, hl, hc] at hw
      refine ⟨.inl ⟨0, .zero hholds, ?_⟩, ⟨_, .found ht, by rwa [kfree_machine]⟩, k2, rfl, ?_⟩
      · show e.heap.answer k1.calls _ k1.live = _
        rw [hc, hl, Nat.add_zero]
      · rw [hlive, ← hl]
        rfl
    · obtain ⟨k1, hs, hm, hc, hgo⟩ := findLoop_miss h0 hholds
      rw [hgo] at hrun
      obtain ⟨r, hr, hrun⟩ := Option.bind_eq_some_iff.1 hrun
      obtain ⟨hnext, hlive, hmem, hdrive, hcalls, hw⟩ := findNextCluster_spec hr
      rw [hm, hs.live, hc] at hw
      rw [hc] at hnext hcalls
      have hs' : SameSearch list k r.2 :=
        ⟨by rw [hdrive]; exact hs.data, hlive.trans hs.live, by rw [hmem]; exact hs.entries⟩
      split at hrun
      · rename_i hlt
        rw [if_pos hlt] at hnext
        exact (ih hrun).before hholds hs' hnext.symm (hcalls hlt) hw
      · rename_i hge
        rw [if_neg hge] at hnext
        cases hrun
        exact ⟨.inr ⟨.last hholds hnext.symm, rfl⟩, ⟨_, .done hholds hnext.symm, by rwa [kfree_machine]⟩,
          r.2, rfl, hs'.live⟩

/-- **It ends** if what it stores at address 0 finds a page there. -/
theorem findLoop_total (h0 : ∀ b ∈ name, b ≠ 0) (hw : LoopLeaves e name list k call c w)
    (hs : SameSearch list k k') (hcalls : k'.calls = call) (hm : ∃ s, UserSpace s k'.machine)
    (hpage : ∀ v b, w v = some b → ¬ NoPage0 k') :
    ∃ n, ∀ fuel, n ≤ fuel →
      ∃ r, findLoop e list (cstring name) (name.length + 1) fuel c k' = some r := by
  induction hw generalizing k' with
  | @found call c t hf =>
    obtain ⟨k1, hm1, hl, hc, hent, hgo⟩ := findLoop_hit h0 (hs.first.2 hf)
    rw [hs.seen_eq] at hent
    obtain ⟨k2, hk2⟩ := copyEntry_total hent (by rwa [hm1]) fun v b hb => by
      rw [hl, hs.live, hc, hcalls] at hb
      unfold NoPage0
      rw [hm1]
      exact hpage v b hb
    refine ⟨1, fun fuel hfuel => ?_⟩
    obtain ⟨f, rfl⟩ : ∃ f, fuel = f + 1 := ⟨fuel - 1, by omega⟩
    rw [hgo, hk2]
    exact ⟨_, rfl⟩
  | @done call c hno hn =>
    obtain ⟨k1, hs1, hm1, hc, hgo⟩ := findLoop_miss h0 fun hh => hno (hs.holds.1 hh)
    obtain ⟨r, hr⟩ := findNextCluster_total (e := e) (c := c) (k := k1) (by rwa [hm1]) fun v b hb => by
      rw [hs1.live, hs.live, hc, hcalls] at hb
      unfold NoPage0
      rw [hm1]
      exact hpage v b hb
    have hnext := (findNextCluster_spec hr).next
    rw [hc, hcalls, hn] at hnext
    have hge : ¬ r.1 < fatEof := fun hlt => by
      rw [if_pos hlt] at hnext
      cases hnext
    refine ⟨1, fun fuel hfuel => ?_⟩
    obtain ⟨f, rfl⟩ : ∃ f, fuel = f + 1 := ⟨fuel - 1, by omega⟩
    rw [hgo, hr, Option.bind_some, if_neg hge]
    exact ⟨_, rfl⟩
  | @next call c c' w' hno hn _ ih =>
    obtain ⟨k1, hs1, hm1, hc, hgo⟩ := findLoop_miss h0 fun hh => hno (hs.holds.1 hh)
    obtain ⟨r, hr⟩ := findNextCluster_total (e := e) (c := c) (k := k1) (by rwa [hm1]) fun v b hb => by
      rw [hs1.live, hs.live, hc, hcalls] at hb
      unfold NoPage0
      rw [hm1]
      cases hw' : w' v with
      | none => exact hpage v b ((congrArg (Option.or · _) hw').trans hb)
      | some b' => exact hpage v b' (congrArg (Option.or · _) hw')
    obtain ⟨hnext, hlive, hmem, hdrive, hcalls', hwrites⟩ := findNextCluster_spec hr
    rw [hc, hcalls, hn] at hnext
    have hlt : r.1 < fatEof := Classical.byContradiction fun hge => by
      rw [if_neg hge] at hnext
      cases hnext
    rw [if_pos hlt] at hnext
    obtain rfl : r.1 = c' := Option.some.inj hnext
    have hst := hwrites (by rwa [hm1])
    have hsearch : SameSearch list k r.2 :=
      ⟨by rw [hdrive, hs1.data, hs.data], by rw [hlive, hs1.live, hs.live], fun t ht => by
        rw [hmem, hs1.entries t ht, hs.entries t ht]⟩
    obtain ⟨n, hend⟩ := ih hsearch (by rw [hcalls' hlt, hc, hcalls]) hst.space
      fun v b hb => by
        unfold NoPage0
        rw [hst.pages 0 (show 0 < 0xC0000000 by decide), hm1]
        exact hpage v b (congrArg (Option.or · _) hb)
    refine ⟨n + 1, fun fuel hfuel => ?_⟩
    obtain ⟨f, rfl⟩ : ∃ f, fuel = f + 1 := ⟨fuel - 1, by omega⟩
    rw [hgo, hr, Option.bind_some, if_pos hlt]
    exact hend f (by omega)

/-! ## `find_file` -/

/-- **`find_file`** returns null exactly if there is no file for the name; else the copy of the entry is
in use afterwards, and was not before. At address 0 it leaves what its lookups and the copy do. -/
theorem findFile_spec (h0 : ∀ b ∈ name, b ≠ 0)
    (hrun : findFile e (cstring name) fuel k = some (file, k')) :
    (file = 0 ↔ Misses e name k) ∧ k'.live = (if file = 0 then k.live else file :: k.live) ∧
      (file ≠ 0 → file ∉ k.live) ∧ ∃ w, Leaves e name k w ∧ Writes w k.machine k'.machine := by
  unfold findFile at hrun
  unfold Leaves
  dsimp only at hrun ⊢
  by_cases hlist : (kmalloc e e.part.clusterSize k).1 = 0
  · rw [if_pos hlist] at hrun
    cases hrun
    have hlist' : e.heap.answer k.calls e.part.clusterSize k.live = 0 := hlist
    refine ⟨iff_of_true rfl (.inl hlist), ?_, fun h => absurd rfl h, fun _ => none, if_pos hlist ▸ rfl,
      kmalloc_keeps.writes⟩
    simp [kmalloc, hlist']
  · rw [if_neg hlist] at hrun
    obtain ⟨len, hlen, hrun⟩ := Option.bind_eq_some_iff.1 hrun
    rw [strlen_some h0 hlen] at hrun
    obtain ⟨hres, ⟨w, hleaves, hw⟩, k1, hlive, hlive1⟩ := findLoop_spec h0 hrun
    have hold : (kmalloc e e.part.clusterSize k).2.live = (kmalloc e e.part.clusterSize k).1 :: k.live :=
      if_neg hlist
    have hfresh : file ≠ 0 → file ∉ (kmalloc e e.part.clusterSize k).2.live := by
      intro hne
      rcases hres with ⟨j, -, rfl⟩ | ⟨-, rfl⟩
      · exact e.heap.fresh _ _ _ hne
      · exact absurd rfl hne
    refine ⟨⟨fun hfile => ?_, fun hmiss => ?_⟩, ?_, fun hne hmem => ?_, w, ?_,
      kmalloc_keeps.trans_writes hw⟩
    · rcases hres with ⟨j, hfirst, he⟩ | ⟨hno, -⟩
      · exact .inr (.inr ⟨j, hfirst, he.symm.trans hfile⟩)
      · exact .inr (.inl hno)
    · rcases hmiss with h | hno | ⟨j, hfirst, he⟩
      · exact absurd h hlist
      · rcases hres with ⟨i, hfirst, -⟩ | ⟨-, hfile⟩
        · exact absurd hfirst.1 (hno.2 i)
        · exact hfile
      · rcases hres with ⟨i, hfirst', hfile⟩ | ⟨hno, -⟩
        · rw [hfile, hfirst'.unique hfirst]
          exact he
        · exact absurd hfirst.1 (hno.2 j)
    · have herase : k'.live = (if file = 0 then (kmalloc e e.part.clusterSize k).1 :: k.live
          else file :: (kmalloc e e.part.clusterSize k).1 :: k.live).erase
            (kmalloc e e.part.clusterSize k).1 := by
        rw [hlive, kfree, if_neg hlist, ← hold, ← hlive1]
      rw [herase]
      split
      · simp
      · rename_i hne
        have hne' : file ≠ (kmalloc e e.part.clusterSize k).1 := by
          intro he
          rw [hold] at hfresh
          exact hfresh hne (he ▸ List.mem_cons_self)
        rw [List.erase_cons_tail (by simpa using hne')]
        simp
    · rw [hold] at hfresh
      exact hfresh hne (List.mem_cons_of_mem _ hmem)
    · rw [if_neg hlist]
      exact hleaves

/-- It returns if what it stores at address 0 finds a page there. -/
theorem findFile_total (h0 : ∀ b ∈ name, b ≠ 0) (hm : ∃ s, UserSpace s k.machine) (hw : Leaves e name k w)
    (hpage : ∀ v b, w v = some b → ¬ NoPage0 k) : ∃ fuel r, findFile e (cstring name) fuel k = some r := by
  unfold findFile
  unfold Leaves at hw
  dsimp only at hw ⊢
  by_cases hlist : (kmalloc e e.part.clusterSize k).1 = 0
  · exact ⟨0, _, if_pos hlist⟩
  · rw [if_neg hlist] at hw
    obtain ⟨hm1, hsame⟩ := @kmalloc_keeps e e.part.clusterSize k hm
    obtain ⟨n, hend⟩ := findLoop_total h0 hw ⟨rfl, rfl, fun _ _ => rfl⟩ rfl hm1 fun v b hb => by
      unfold NoPage0
      rw [(hsame 0 (show 0 < 0xC0000000 by decide)).1]
      exact hpage v b hb
    obtain ⟨r, hr⟩ := hend (n + (name.length + 1)) (by omega)
    refine ⟨n + (name.length + 1), r, ?_⟩
    rw [if_neg hlist, strlen_cstring h0 (Nat.zero_le _) (by omega), Option.bind_some]
    exact hr

theorem FirstEntry.unique {t t' : Nat} (h : FirstEntry e name list c k t)
    (h' : FirstEntry e name list c k t') : t = t' := by
  rcases Nat.lt_trichotomy t t' with hlt | he | hgt
  · exact absurd h.2.1 (h'.2.2 t hlt)
  · exact he
  · exact absurd h'.2.1 (h.2.2 t' hgt)

/-- What is stored at address 0 does not depend on the run. -/
theorem LoopLeaves.unique (h : LoopLeaves e name list k call c w) (h' : LoopLeaves e name list k call c w') :
    w' = w := by
  induction h generalizing w' with
  | found hf =>
    cases h' with
    | found hf' => rw [hf.unique hf']
    | done hno _ => exact absurd ⟨_, hf.1, hf.2.1⟩ hno
    | next hno _ _ => exact absurd ⟨_, hf.1, hf.2.1⟩ hno
  | done hno hn =>
    cases h' with
    | found hf => exact absurd ⟨_, hf.1, hf.2.1⟩ hno
    | done => rfl
    | next _ hn' _ =>
      rw [hn] at hn'
      cases hn'
  | next hno hn _ ih =>
    cases h' with
    | found hf => exact absurd ⟨_, hf.1, hf.2.1⟩ hno
    | done _ hn' =>
      rw [hn] at hn'
      cases hn'
    | next _ hn' hw' =>
      rw [hn] at hn'
      cases hn'
      rw [ih hw']

theorem Leaves.unique (h : Leaves e name k w) (h' : Leaves e name k w') : w' = w := by
  unfold Leaves at h h'
  dsimp only at h h'
  split at h
  · rw [if_pos ‹_›] at h'
    rw [h, h']
  · rw [if_neg ‹_›] at h'
    exact LoopLeaves.unique h h'

/-- What is stored at address 0 is less than a page. -/
theorem Leaves.low {v : Nat} {b : UInt8} (h : Leaves e name k w) (hb : w v = some b) : v < 0x1000 := by
  unfold Leaves at h
  dsimp only at h
  split at h
  · rw [h] at hb
    cases hb
  · have hlookup : ∀ c live call, lookupAtNull e c live call v = some b → v < 0x1000 := by
      intro c live call hb
      unfold lookupAtNull at hb
      split at hb
      · omega
      · cases hb
    generalize (kmalloc e e.part.clusterSize k).2.calls = call at h
    generalize e.rootCluster = c at h
    induction h with
    | found hf =>
      unfold copyAtNull at hb
      split at hb
      · obtain ⟨hlt, -⟩ := List.getElem?_eq_some_iff.1 hb
        rw [List.length_set] at hlt
        unfold seen at hlt
        split at hlt
        · simp only [diskEntry, List.length_map, List.length_range, sizeofDirEntry] at hlt
          omega
        · rw [entryBytes_length] at hlt
          unfold sizeofDirEntry at hlt
          omega
      · cases hb
    | done => exact hlookup _ _ _ hb
    | next hno hn _ ih =>
      rcases Option.or_eq_some_iff.1 hb with hb | ⟨-, hb⟩
      · exact ih hb
      · exact hlookup _ _ _ hb

end

end Exec
