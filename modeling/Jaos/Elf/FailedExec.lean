import Jaos.Elf.Exec
import Jaos.Elf.LoadedImage

/-!
# Programs that cannot be started (`kernel/exec.c`, `kernel/elf.c`)

`load_executable` never frees the copy of the directory entry, and on two of its exits not the buffer
either (`loadExecutable_live`): the blocks in use are the same afterwards exactly if there is no file for the
name (`heap_balanced_iff`). `exec` returns to its caller in this case only; in all others it has unmapped the
caller's pages by the time it knows whether the program can be started. Where it returns, the pages are as
they were unless `find_file` has stored something else through null (`failed_exec_iff`).
-/

namespace Exec

open Lib Paging Program Fat32 Elf64

section
variable {e : Env} {name : List UInt8} {str : Nat → UInt8} {list c fuel fuel' address len file : Nat}
  {k k' : Kernel} {x : Exit} {o : Outcome} {r : Nat × Kernel}

/-! ## The ledger of `load_executable` -/

/-- `read_file` frees what it allocates. -/
theorem readFile_live (hrun : readFile e fuel c address k = some k') : k'.live = k.live := by
  induction fuel generalizing c address k with
  | zero => cases hrun
  | succ fuel ih =>
    obtain ⟨y, -, hrun⟩ := Option.bind_eq_some_iff.1 hrun
    obtain ⟨r, hr, hrun⟩ := Option.bind_eq_some_iff.1 hrun
    have hlive := (findNextCluster_spec hr).live
    split at hrun
    · rw [ih hrun, hlive]
    · cases hrun
      exact hlive

/-- What is in use after `load_executable`, with the copy of the entry and the buffer. -/
def leftOver (live : List Nat) (file buffer : Nat) : Exit → List Nat
  | .missing => live
  | .loaded _ => file :: live
  | _ => if buffer = 0 then file :: live else buffer :: file :: live

/-- The copy of the entry is, if there is one. -/
theorem mem_leftOver {live : List Nat} {buffer : Nat} (hx : x ≠ .missing) :
    file ∈ leftOver live file buffer x := by
  have hboth : file ∈ if buffer = 0 then file :: live else buffer :: file :: live := by
    split
    · exact List.mem_cons_self
    · exact List.mem_cons_of_mem _ List.mem_cons_self
  cases x with
  | missing => exact absurd rfl hx
  | loaded _ => exact List.mem_cons_self
  | rejected => exact hboth
  | exhausted => exact hboth

/-- **The ledger** at each exit of `load_executable`. -/
theorem loadExecutable_live (h0 : ∀ b ∈ name, b ≠ 0)
    (hrun : loadExecutable e (cstring name) fuel k = some (x, k')) :
    ∃ file buffer, (file = 0 ↔ Misses e name k) ∧ (file = 0 ↔ x = .missing) ∧
      (file ≠ 0 → file ∉ k.live) ∧ k'.live = leftOver k.live file buffer x := by
  obtain ⟨⟨file, k1⟩, hfind, hrun⟩ := Option.bind_eq_some_iff.1 hrun
  obtain ⟨hmiss, hlive, hfresh, -⟩ := findFile_spec h0 hfind
  dsimp only at hrun
  by_cases hfile : file = 0
  · rw [if_pos hfile] at hrun
    rw [if_pos hfile] at hlive
    cases hrun
    exact ⟨file, 0, hmiss, iff_of_true hfile rfl, hfresh, hlive⟩
  · rw [if_neg hfile] at hrun
    rw [if_neg hfile] at hlive
    generalize hb : kmalloc e (bufferSize e.part (fileSize k1.mem file)) k1 = b at hrun
    by_cases hpage : b.1 = 0 ∧ NoPage0 b.2
    · rw [if_pos hpage] at hrun
      cases hrun
    rw [if_neg hpage] at hrun
    obtain ⟨k2, hread, hrun⟩ := Option.bind_eq_some_iff.1 hrun
    have hbuffer : b.2.live = if b.1 = 0 then file :: k.live else b.1 :: file :: k.live := by
      rw [← hb, ← hlive]
      rfl
    have hlive2 := (readFile_live hread).trans hbuffer
    refine ⟨file, b.1, hmiss, ?_⟩
    split at hrun
    · cases hrun
      exact ⟨iff_of_false hfile (fun h => by cases h), hfresh, hlive2⟩
    · obtain ⟨⟨ok, m⟩, -, he⟩ := Option.map_eq_some_iff.1 hrun
      cases ok with
      | false =>
        cases he
        exact ⟨iff_of_false hfile (fun h => by cases h), hfresh, hlive2⟩
      | true =>
        cases he
        refine ⟨iff_of_false hfile (fun h => by cases h), hfresh, ?_⟩
        show (kfree b.1 { k2 with machine := m }).live = file :: k.live
        unfold kfree
        split
        · rename_i h0
          exact hlive2.trans (if_pos h0)
        · rename_i h0
          show k2.live.erase b.1 = file :: k.live
          rw [hlive2, if_neg h0, List.erase_cons_head]

/-- **When loading a program leaks no memory**: on every return path of `load_executable`, the blocks in use
are those that were in use before exactly if there is no file for the name. -/
theorem heap_balanced_iff (h0 : ∀ b ∈ name, b ≠ 0)
    (hrun : loadExecutable e (cstring name) fuel k = some (x, k')) :
    (∀ b, b ∈ k'.live ↔ b ∈ k.live) ↔ Misses e name k := by
  obtain ⟨file, buffer, hmiss, hexit, hfresh, hlive⟩ := loadExecutable_live h0 hrun
  rw [← hmiss]
  constructor
  · intro hsame
    refine Classical.byContradiction fun hfile => hfresh hfile ((hsame file).1 ?_)
    rw [hlive]
    exact mem_leftOver fun hx => hfile (hexit.2 hx)
  · intro hfile b
    rw [hlive, hexit.1 hfile]
    rfl

/-! ## More fuel -/

theorem readFile_mono (hrun : readFile e fuel c address k = some k') (hle : fuel ≤ fuel') :
    readFile e fuel' c address k = some k' := by
  induction fuel generalizing fuel' c address k with
  | zero => cases hrun
  | succ fuel ih =>
    obtain ⟨f, rfl⟩ : ∃ f, fuel' = f + 1 := ⟨fuel' - 1, by omega⟩
    obtain ⟨y, hy, hrun⟩ := Option.bind_eq_some_iff.1 hrun
    obtain ⟨x, hx, hrun⟩ := Option.bind_eq_some_iff.1 hrun
    rw [readFile, hy, Option.bind_some, hx, Option.bind_some]
    split at hrun
    · rw [if_pos ‹_›]
      exact ih hrun (by omega)
    · rw [if_neg ‹_›]
      exact hrun

theorem findLoop_mono (hrun : findLoop e list str len fuel c k = some r) (hle : fuel ≤ fuel') :
    findLoop e list str len fuel' c k = some r := by
  induction fuel generalizing fuel' c k with
  | zero => cases hrun
  | succ fuel ih =>
    obtain ⟨f, rfl⟩ : ∃ f, fuel' = f + 1 := ⟨fuel' - 1, by omega⟩
    obtain ⟨y, hy, hrun⟩ := Option.bind_eq_some_iff.1 hrun
    rw [findLoop, hy, Option.bind_some]
    dsimp only at hrun ⊢
    split at hrun
    · exact hrun
    · obtain ⟨x, hx, hrun⟩ := Option.bind_eq_some_iff.1 hrun
      rw [hx, Option.bind_some]
      split at hrun
      · rw [if_pos ‹_›]
        exact ih hrun (by omega)
      · rw [if_neg ‹_›]
        exact hrun

theorem strlen_le {i : Nat} (hrun : strlen str fuel i = some len) (hle : fuel ≤ fuel') :
    strlen str fuel' i = some len := by
  obtain ⟨n, rfl⟩ := Nat.exists_eq_add_of_le hle
  clear hle
  induction n with
  | zero => exact hrun
  | succ n ih => exact strlen_mono ih

theorem findFile_mono (hrun : findFile e str fuel k = some r) (hle : fuel ≤ fuel') :
    findFile e str fuel' k = some r := by
  unfold findFile at hrun ⊢
  dsimp only at hrun ⊢
  split at hrun
  · rw [if_pos ‹_›]
    exact hrun
  · rw [if_neg ‹_›]
    obtain ⟨len, hlen, hrun⟩ := Option.bind_eq_some_iff.1 hrun
    rw [strlen_le hlen hle, Option.bind_some]
    exact findLoop_mono hrun hle

theorem loadExecutable_mono (hrun : loadExecutable e str fuel k = some (x, k')) (hle : fuel ≤ fuel') :
    loadExecutable e str fuel' k = some (x, k') := by
  obtain ⟨f, hf, hrun⟩ := Option.bind_eq_some_iff.1 hrun
  unfold loadExecutable
  rw [findFile_mono hf hle, Option.bind_some]
  split at hrun
  · rw [if_pos ‹_›]
    exact hrun
  · rw [if_neg ‹_›]
    dsimp only at hrun ⊢
    split at hrun
    · cases hrun
    · rw [if_neg ‹_›]
      obtain ⟨k1, hk1, hrun⟩ := Option.bind_eq_some_iff.1 hrun
      rw [readFile_mono hk1 hle, Option.bind_some]
      exact hrun

/-- A run of `exec` that ends does so with more fuel. -/
theorem exec_mono (hrun : exec e str fuel k = some (o, k')) (hle : fuel ≤ fuel') :
    exec e str fuel' k = some (o, k') := by
  obtain ⟨f, hf, hrun⟩ := Option.bind_eq_some_iff.1 hrun
  unfold exec
  rw [findFile_mono hf hle, Option.bind_some]
  split at hrun
  · rw [if_pos ‹_›]
    exact hrun
  · rw [if_neg ‹_›]
    obtain ⟨m, hm, hrun⟩ := Option.bind_eq_some_iff.1 hrun
    obtain ⟨⟨x, k1⟩, hload, he⟩ := Option.map_eq_some_iff.1 hrun
    rw [hm, Option.bind_some, loadExecutable_mono hload hle, Option.map_some]
    exact congrArg some he

/-- So `exec` ends in one way only. -/
theorem exec_agree {o' : Outcome} {k'' : Kernel} (hrun : exec e str fuel k = some (o, k'))
    (hrun' : exec e str fuel' k = some (o', k'')) : o = o' := by
  have h := exec_mono hrun (Nat.le_max_left fuel fuel')
  rw [exec_mono hrun' (Nat.le_max_right fuel fuel')] at h
  exact (Prod.mk.inj (Option.some.inj h)).1.symm

/-! ## `exec` -/

/-- `exec` starts no program: no run of it enters one that `load_executable` has loaded. -/
def CannotStart (e : Env) (name : List UInt8) (k : Kernel) : Prop :=
  ∀ fuel n entry k', exec e (cstring name) fuel k ≠ some (.entered (.loaded n) entry, k')

/-- **The caller goes on as it was**: `exec` returns 0 to it, and its pages are the same. -/
def CallerIntact (e : Env) (name : List UInt8) (k : Kernel) : Prop :=
  ∃ fuel k', exec e (cstring name) fuel k = some (.returned 0, k') ∧ SameUser k.machine k'.machine

/-- What `find_file` leaves at address 0 is there already. -/
def NullsIntact (e : Env) (name : List UInt8) (k : Kernel) : Prop :=
  ∃ w, Leaves e name k w ∧ ∀ v b, w v = some b → loadByte v k.machine = some b

/-- `exec` returns what `find_file` does, only where there is no file for the name. -/
theorem exec_returns {v : Nat} (hrun : exec e (cstring name) fuel k = some (.returned v, k')) :
    findFile e (cstring name) fuel k = some (0, k') := by
  obtain ⟨⟨file, k1⟩, hfind, hrun⟩ := Option.bind_eq_some_iff.1 hrun
  dsimp only at hrun
  by_cases hfile : file = 0
  · rw [if_pos hfile] at hrun
    cases hrun
    rw [hfind, hfile]
  · rw [if_neg hfile] at hrun
    obtain ⟨m, -, hrun⟩ := Option.bind_eq_some_iff.1 hrun
    obtain ⟨y, -, he⟩ := Option.map_eq_some_iff.1 hrun
    cases he

/-- There is a page where a byte is. -/
theorem page0 (v : Nat) (hv : v < 0x1000) {b : UInt8} (h : loadByte v k.machine = some b) : ¬ NoPage0 k := by
  intro h0
  have hsame : Addr.indices v = Addr.indices 0 := by
    unfold Addr.indices Addr.pml4 Addr.pdp Addr.pd Addr.pt
    simp only [List.cons.injEq, and_true]
    omega
  have hnone : Paging.translate k.machine.phys k.machine.cr3 v = none := by
    rw [Paging.translate, hsame]
    exact h0
  rw [loadByte_none hnone] at h
  cases h

/-- **When a failed `exec` leaves the caller intact**: it fails for want of a file, and what is stored
through null on the way is what was there. -/
theorem failed_exec_iff (h0 : ∀ b ∈ name, b ≠ 0) (hm : ∃ s, UserSpace s k.machine) :
    CallerIntact e name k ↔ Misses e name k ∧ NullsIntact e name k := by
  constructor
  · rintro ⟨fuel, k', hrun, hsame⟩
    obtain ⟨hmiss, -, -, w, hleaves, hw⟩ := findFile_spec h0 (exec_returns hrun)
    refine ⟨hmiss.1 rfl, w, hleaves, fun v b hb => ?_⟩
    have hlow := hleaves.low hb
    have hv : User v := show v < 0xC0000000 by omega
    rw [← (hsame v hv).2, (hw hm).byte v hv, hb]
    rfl
  · rintro ⟨hmiss, w, hleaves, hthere⟩
    obtain ⟨fuel, ⟨file, k'⟩, hfind⟩ := findFile_total h0 hm hleaves fun v b hb =>
      page0 v (hleaves.low hb) (hthere v b hb)
    obtain ⟨hzero, -, -, w', hleaves', hw⟩ := findFile_spec h0 hfind
    refine ⟨fuel, k', ?_, fun v hv => ⟨(hw hm).pages v hv, ?_⟩⟩
    · rw [exec, hfind, Option.bind_some]
      exact if_pos (hzero.2 hmiss)
    · rw [(hw hm).byte v hv, hleaves.unique hleaves']
      cases hb : w v with
      | none => rfl
      | some b => exact (hthere v b hb).symm

end

/-! ## A file that is no program -/

/-- Every block is a page of its own. -/
def pageHeap : Allocator where
  answer := fun call _ live => if 0x1000 * (call + 1) ∈ live then 0 else 0x1000 * (call + 1)
  pages := fun _ m => m
  fresh := by
    intro call _ live hne
    split at hne
    · exact absurd rfl hne
    · rwa [if_neg ‹_›]
  keeps := fun _ => .refl

/-- A volume where each chain is one cluster. -/
def smallEnv : Env where
  clusterBegin := 1000
  sectorsPerCluster := 1
  rootCluster := 2
  volume := filledVolume 0x0fffffff
  sector := rfl
  beyond := fun _ _ => 0
  fails := fun _ => false
  heap := pageHeap

/-- The root directory has an entry for `LS`, the sectors of the file are all zero. -/
def zeroFile : Kernel where
  mem := fun _ => 0
  drive := driveWith (namedEntry ls)
  machine := emptySpace
  live := []
  calls := 0

theorem lsx_noNul : ∀ b ∈ lsx, b ≠ 0 := by simp [lsx]

set_option maxRecDepth 4000 in
/-- No entry begins with `LSX`. -/
theorem misses_lsx : Misses smallEnv lsx zeroFile := by
  have hrun : (findFile smallEnv (cstring lsx) 20 zeroFile).map Prod.fst = some 0 := by decide
  obtain ⟨⟨file, k'⟩, hfind, hfile⟩ := Option.map_eq_some_iff.1 hrun
  exact (findFile_spec lsx_noNul hfind).1.1 hfile

set_option maxRecDepth 4000 in
/-- `load_executable` is balanced for `LSX`. -/
theorem heap_balanced_lsx : ∃ x k', loadExecutable smallEnv (cstring lsx) 20 zeroFile = some (x, k') ∧
    ∀ b, b ∈ k'.live ↔ b ∈ zeroFile.live := by
  have hrun : (loadExecutable smallEnv (cstring lsx) 20 zeroFile).isSome := by decide
  obtain ⟨⟨x, k'⟩, hload⟩ := Option.isSome_iff_exists.1 hrun
  exact ⟨x, k', hload, (heap_balanced_iff lsx_noNul hload).2 misses_lsx⟩

set_option maxRecDepth 4000 in
/-- **Two blocks are lost**: `elf_check` rejects the file, and the copy of its entry and the buffer stay in
use. -/
theorem heap_grows : ¬ ∀ e name fuel k x k', (∀ b ∈ name, b ≠ 0) →
    loadExecutable e (cstring name) fuel k = some (x, k') → ∀ b, b ∈ k'.live ↔ b ∈ k.live := by
  intro hall
  have hrun : (loadExecutable smallEnv (cstring ls) 20 zeroFile).map (fun r => (r.1, r.2.live)) =
      some (.rejected, [0x3000, 0x2000]) := by decide +kernel
  obtain ⟨⟨x, k'⟩, hload, hr⟩ := Option.map_eq_some_iff.1 hrun
  have hlive : k'.live = [0x3000, 0x2000] := congrArg Prod.snd hr
  have hmem := (hall smallEnv ls 20 zeroFile x k' ls_noNul hload 0x2000).1 (by simp [hlive])
  cases hmem

/-- No allocation fails on the way. -/
theorem nullsIntact_lsx : NullsIntact smallEnv lsx zeroFile := by
  have hno : ¬ Exec.Holds smallEnv lsx 0x1000 2 (kmalloc smallEnv smallEnv.part.clusterSize zeroFile).2 := by
    rintro ⟨t, ht, hs⟩
    have hall : ∀ t, t < 16 → ¬ Starts lsx (seen smallEnv 0x1000 2
        (kmalloc smallEnv smallEnv.part.clusterSize zeroFile).2 t) := by decide
    exact hall t ht hs
  have hleaves : Leaves smallEnv lsx zeroFile (lookupAtNull smallEnv 2 [0x1000] 1) :=
    LoopLeaves.done hno (by decide)
  refine ⟨_, hleaves, fun v b hb => ?_⟩
  rw [lookupAtNull_of_ne (by decide)] at hb
  cases hb

/-- The caller goes on where there is no `LSX`. -/
theorem failed_exec_lsx : CallerIntact smallEnv lsx zeroFile :=
  (failed_exec_iff lsx_noNul ⟨_, userSpace_emptySpace⟩).2 ⟨misses_lsx, nullsIntact_lsx⟩

/-- **`exec` does not come back**: it enters the null that `load_executable` returns for a file that is no
program. -/
theorem exec_enters_null : ¬ ∀ e name k, (∀ b ∈ name, b ≠ 0) → (∃ s, UserSpace s k.machine) →
    CannotStart e name k → CallerIntact e name k := by
  intro hall
  have hrun : (exec smallEnv (cstring ls) 20 zeroFile).map Prod.fst = some (.entered .rejected 0) := by
    decide +kernel
  obtain ⟨⟨o, k'⟩, hexec, ho⟩ := Option.map_eq_some_iff.1 hrun
  obtain rfl : o = .entered .rejected 0 := ho
  have hcannot : CannotStart smallEnv ls zeroFile := by
    intro fuel n entry k'' hrun'
    cases exec_agree hexec hrun'
  obtain ⟨_, _, hret, -⟩ := hall smallEnv ls zeroFile ls_noNul ⟨_, userSpace_emptySpace⟩ hcannot
  cases exec_agree hexec hret

end Exec
