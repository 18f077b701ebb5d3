import Jaos.Lib.Word

/-!
# FAT chains (`kernel/fat32.c`, `boot/diskio64.asm`)

The kernel and the boot loader both follow the chain of clusters in the FAT, an array of 32-bit
entries that starts at `_fat_begin_lba`. `findNextCluster` is the kernel's step, `getNextCluster` the
loader's. The disk is an array of sectors of 32-bit words; both read one sector and look up one word of
it. A word behind the sector is whatever memory holds there (`beyond`).

`FollowsFat`: the kernel looks up the entry of the cluster, inside the sector, and draws the same
conclusion as the loader. `followsFat_iff`: this is so exactly for the clusters whose entry is in the
first sector of the FAT and whose entry has clear top bits or ends the chain.
-/

namespace Fat32

open Lib

def fatClusterMask : Nat := 0x0fffffff
def fatEof : Nat := 0x0ffffff8

/-- What the two know of the volume, and what they find on the disk. -/
structure Volume where
  bytesPerSector : BitVec 16
  fatBeginLba : BitVec 32
  disk : Nat → Nat → BitVec 32
  beyond : Nat → BitVec 32

/-- The number of FAT entries in a sector. -/
def Volume.entries (v : Volume) : Nat := v.bytesPerSector.toNat / 4

/-- Word `i` of the buffer for one sector after a read of `lba`, of which the drive gets 28 bits. -/
def Volume.word (v : Volume) (lba i : Nat) : BitVec 32 :=
  if i < v.entries then v.disk (lba % 2 ^ 28) i else v.beyond i

/-! ## The kernel -/

/-- The sector that `find_next_cluster` reads. -/
def findNextLba (v : Volume) (cluster : Nat) : Nat :=
  add64 v.fatBeginLba.toNat (cluster / v.bytesPerSector.toNat / 4)

/-- The word of it that it looks up. -/
def findNextIndex (v : Volume) (cluster : Nat) : Nat := cluster % v.bytesPerSector.toNat

/-- `find_next_cluster`. -/
def findNextCluster (v : Volume) (cluster : Nat) : Nat :=
  if fatEof ≤ cluster then 0x0fffffff
  else (v.word (findNextLba v cluster) (findNextIndex v cluster)).toNat

/-- The callers stop at a result from `0x0ffffff8` on. -/
def next (v : Volume) (cluster : Nat) : Option Nat :=
  if findNextCluster v cluster < fatEof then some (findNextCluster v cluster) else none

/-! ## The boot loader -/

/-- `getNextCluster`; `none` is the carry flag. The operands of `cmp` have 28 bits, so the signed
`jge` is `≥`. -/
def getNextCluster (v : Volume) (cluster : Nat) : Option Nat :=
  let eax := cluster &&& fatClusterMask
  if fatEof ≤ eax then none
  else
    let ebx := v.bytesPerSector.toNat >>> 2
    let edx := eax % ebx
    let eax := (eax / ebx + v.fatBeginLba.toNat) % 2 ^ 32
    let eax := (v.word eax edx).toNat &&& fatClusterMask
    if fatEof ≤ eax then none else some eax

/-! ## One step -/

/-- The entry of a cluster: entry number `cluster` of the table at `_fat_begin_lba`. -/
def entryLba (v : Volume) (cluster : Nat) : Nat := v.fatBeginLba.toNat + cluster / v.entries

def entryIndex (v : Volume) (cluster : Nat) : Nat := cluster % v.entries

def entry (v : Volume) (cluster : Nat) : BitVec 32 :=
  v.disk (entryLba v cluster % 2 ^ 28) (entryIndex v cluster)

/-- **The kernel's step is the loader's**: it reads the sector and the word of the entry, which lies in
its buffer, and finds the same successor or the same end of the chain. -/
structure FollowsFat (v : Volume) (cluster : Nat) : Prop where
  lba : findNextLba v cluster = entryLba v cluster
  index : findNextIndex v cluster = entryIndex v cluster
  inside : findNextIndex v cluster < v.entries
  same : next v cluster = getNextCluster v cluster

section
variable {v : Volume} {cluster : Nat}

/-- The entry has clear top bits, or ends the chain whatever they are. -/
def CleanEntry (e : BitVec 32) : Prop :=
  e.toNat < 2 ^ 28 ∨ fatEof ≤ e.toNat % 2 ^ 28

theorem and_clusterMask (n : Nat) : n &&& fatClusterMask = n % 2 ^ 28 :=
  Nat.and_two_pow_sub_one_eq_mod n 28

theorem entries_pos (h : 512 ≤ v.bytesPerSector.toNat) : 128 ≤ v.entries := by
  unfold Volume.entries
  omega

/-- **The loader** looks up the entry of the cluster. -/
theorem getNextCluster_eq (h : 512 ≤ v.bytesPerSector.toNat) (hc : cluster < fatEof) :
    getNextCluster v cluster =
      if fatEof ≤ (entry v cluster).toNat % 2 ^ 28 then none
      else some ((entry v cluster).toNat % 2 ^ 28) := by
  unfold fatEof at hc
  have hpos := entries_pos h
  have hmask : cluster &&& fatClusterMask = cluster := by
    rw [and_clusterMask, Nat.mod_eq_of_lt (by omega)]
  have hshift : v.bytesPerSector.toNat >>> 2 = v.entries := by
    rw [Nat.shiftRight_eq_div_pow]
    rfl
  unfold getNextCluster
  dsimp only
  rw [hmask, hshift, if_neg (by unfold fatEof; omega), and_clusterMask]
  unfold Volume.word
  rw [if_pos (Nat.mod_lt _ (by omega)), Nat.mod_mod_of_dvd _ (by decide : 2 ^ 28 ∣ 2 ^ 32),
    Nat.add_comm (cluster / v.entries)]
  rfl

/-- The kernel's sector is that of the entry for the entries of the first sector only. -/
theorem findNextLba_iff (h4 : 4 ∣ v.bytesPerSector.toNat) (h : 512 ≤ v.bytesPerSector.toNat)
    (hc : cluster < fatEof) : findNextLba v cluster = entryLba v cluster ↔ cluster < v.entries := by
  have hpos := entries_pos h
  have hlba := v.fatBeginLba.isLt
  have hbps : v.bytesPerSector.toNat = v.entries * 4 := by
    unfold Volume.entries
    omega
  have hle : cluster / v.bytesPerSector.toNat ≤ cluster := Nat.div_le_self _ _
  unfold fatEof at hc
  unfold findNextLba entryLba
  rw [add64_of_lt (by omega)]
  have hkernel : cluster / v.bytesPerSector.toNat / 4 = cluster / v.entries / 16 := by
    rw [hbps, ← Nat.div_div_eq_div_mul, Nat.div_div_eq_div_mul]
  constructor
  · intro he
    refine Classical.byContradiction fun hge => ?_
    have := Nat.div_pos (Nat.le_of_not_lt hge) (by omega)
    omega
  · intro hlt
    have := Nat.div_eq_of_lt hlt
    omega

theorem next_of_entry (hc : cluster < fatEof) (hw : v.word (findNextLba v cluster)
    (findNextIndex v cluster) = entry v cluster) : next v cluster =
      if (entry v cluster).toNat < fatEof then some (entry v cluster).toNat else none := by
  have hfind : findNextCluster v cluster = (entry v cluster).toNat := by
    unfold findNextCluster
    rw [if_neg (by omega), hw]
  rw [next, hfind]

/-- The kernel finds the entries of the first sector. -/
theorem word_first (h4 : 4 ∣ v.bytesPerSector.toNat) (h : 512 ≤ v.bytesPerSector.toNat)
    (hc : cluster < fatEof) (hlt : cluster < v.entries) :
    findNextIndex v cluster = entryIndex v cluster ∧ findNextIndex v cluster < v.entries ∧
      v.word (findNextLba v cluster) (findNextIndex v cluster) = entry v cluster := by
  have hindex : findNextIndex v cluster = cluster := by
    unfold findNextIndex
    refine Nat.mod_eq_of_lt ?_
    unfold Volume.entries at hlt
    omega
  have hentry : entryIndex v cluster = cluster := Nat.mod_eq_of_lt hlt
  refine ⟨hindex.trans hentry.symm, by omega, ?_⟩
  rw [Volume.word, if_pos (by omega), (findNextLba_iff h4 h hc).2 hlt, hindex, entry, hentry]

/-- There the conclusions are the same when the top bits of the entry do not matter. -/
theorem next_iff (h4 : 4 ∣ v.bytesPerSector.toNat) (h : 512 ≤ v.bytesPerSector.toNat)
    (hc : cluster < fatEof) (hlt : cluster < v.entries) :
    next v cluster = getNextCluster v cluster ↔ CleanEntry (entry v cluster) := by
  rw [next_of_entry hc (word_first h4 h hc hlt).2.2, getNextCluster_eq h hc]
  have hbits := (entry v cluster).isLt
  unfold CleanEntry fatEof
  split <;> split <;> simp only [Option.some.injEq, reduceCtorEq, false_iff, true_iff] <;> omega

theorem FollowsFat.of_first (h4 : 4 ∣ v.bytesPerSector.toNat) (h : 512 ≤ v.bytesPerSector.toNat)
    (hc : cluster < fatEof) (hlt : cluster < v.entries) (hclean : CleanEntry (entry v cluster)) :
    FollowsFat v cluster := by
  obtain ⟨hindex, hinside, -⟩ := word_first h4 h hc hlt
  exact ⟨(findNextLba_iff h4 h hc).2 hlt, hindex, hinside, (next_iff h4 h hc hlt).2 hclean⟩

/-- **Where the kernel follows the FAT**: the entry is in the first sector of the table, and its top
bits do not matter. -/
theorem followsFat_iff (h4 : 4 ∣ v.bytesPerSector.toNat) (h : 512 ≤ v.bytesPerSector.toNat)
    (hc : cluster < fatEof) :
    FollowsFat v cluster ↔ cluster < v.entries ∧ CleanEntry (entry v cluster) := by
  refine ⟨fun hf => ?_, fun ⟨hlt, hclean⟩ => .of_first h4 h hc hlt hclean⟩
  have hlt := (findNextLba_iff h4 h hc).1 hf.lba
  exact ⟨hlt, (next_iff h4 h hc hlt).1 hf.same⟩

end

/-! ## Chains -/

/-- The clusters that `read_file` or `loadFile` reads, up to `n` of them, where `step` is its step. -/
def chain (step : Nat → Option Nat) : (n : Nat) → (cluster : Nat) → List Nat
  | 0, _ => []
  | n + 1, cluster =>
    cluster :: match step cluster with
      | none => []
      | some c => chain step n c

/-- **The same file**: as long as every cluster that the loader reads meets the condition, the kernel
reads the same ones. -/
theorem same_chain {v : Volume} {n cluster : Nat} (h4 : 4 ∣ v.bytesPerSector.toNat)
    (h : 512 ≤ v.bytesPerSector.toNat) (hc : cluster < fatEof)
    (hclean : ∀ c ∈ chain (getNextCluster v) n cluster, c < v.entries ∧ CleanEntry (entry v c)) :
    chain (next v) n cluster = chain (getNextCluster v) n cluster := by
  induction n generalizing cluster with
  | zero => rfl
  | succ n ih =>
    obtain ⟨hfirst, htop⟩ := hclean _ List.mem_cons_self
    have hsame := (FollowsFat.of_first h4 h hc hfirst htop).same
    unfold chain at hclean ⊢
    rw [hsame]
    cases hs : getNextCluster v cluster with
    | none => rfl
    | some c =>
      rw [hs] at hclean
      have hlt : c < fatEof := by
        rw [getNextCluster_eq h hc] at hs
        split at hs
        · cases hs
        · cases hs
          omega
      exact congrArg _ (ih hlt fun d hd => hclean d (List.mem_cons_of_mem _ hd))

/-! ## Two volumes -/

/-- Sectors of 512 bytes; cluster 5 leads to 6, and cluster 128 to 7. -/
def smallVolume : Volume where
  bytesPerSector := 512
  fatBeginLba := 32
  disk lba i := if lba = 32 ∧ i = 5 then 6 else if lba = 33 ∧ i = 0 then 7 else 0
  beyond _ := 0

/-- A cluster of the first sector. -/
theorem followsFat_small : 5 < smallVolume.entries ∧ FollowsFat smallVolume 5 :=
  ⟨by decide, (followsFat_iff (by decide) (by decide) (by decide)).2 ⟨by decide, .inl (by decide)⟩⟩

/-- **Cluster 128** is the first of the second sector: the loader goes on with cluster 7, the kernel
looks behind its buffer. -/
theorem not_followsFat : ¬ ∀ (v : Volume) (cluster : Nat), 4 ∣ v.bytesPerSector.toNat →
    512 ≤ v.bytesPerSector.toNat → cluster < fatEof → FollowsFat v cluster := by
  intro hall
  have h := (hall smallVolume 128 (by decide) (by decide) (by decide)).inside
  revert h
  decide

end Fat32
