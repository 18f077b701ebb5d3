import Jaos.Disk.Fat32
import Jaos.Lib.Bytes
import Jaos.Lib.Register

/-!
# The first cluster of a file (`kernel/fat32.h`, `kernel/elf.c`, `boot/stage1.asm`, `boot/diskio64.asm`)

The fields of a directory entry, and the number that the kernel and the two stages of the boot loader
make of its two halves of the first cluster.
-/

namespace Fat32

open Lib

/-! ## `dir_entry` -/

/-- `sizeof(dir_entry)`. -/
def sizeofDirEntry : Nat := 32

section
variable (m : Mem) (entry : Nat)

def fileAttribute : UInt8 := m (entry + 11)
def clusterHigh : Nat := m.load (entry + 20) 2
def clusterLow : Nat := m.load (entry + 26) 2
def fileSize : Nat := m.load (entry + 28) 4

end

/-! ## The first cluster -/

/-- The argument of `read_file` in `load_executable`. -/
def loadExecutableCluster (m : Mem) (file : Nat) : Nat :=
  clusterHigh m file * 0x100 + clusterLow m file

/-- `searchFile` of the second stage; `repe cmpsb` has left `rsi` behind the name. -/
def stage2Cluster (m : Mem) (rsi : Nat) : Nat :=
  let rax := m.load (rsi + 9) 2
  let rbx := 0x100
  let rax := rax * rbx % 2 ^ 64
  let rax := rax * rbx % 2 ^ 64
  setLow 16 rax (m.load (rsi + 15) 2)

/-- `searchFile` of the first stage. -/
def stage1Cluster (m : Mem) (si : Nat) : Nat :=
  let stack := push16 (m.load (si + 9) 2) []
  let stack := push16 (m.load (si + 15) 2) stack
  (pop32 stack).1

/-- What the entry says. -/
def firstCluster (m : Mem) (entry : Nat) : Nat := clusterHigh m entry * 65536 + clusterLow m entry

section
variable {m : Mem} {entry : Nat}

/-- The second stage finds the first cluster. -/
theorem stage2Cluster_eq : stage2Cluster m (entry + 11) = firstCluster m entry := by
  have hhigh : clusterHigh m entry < 65536 := Mem.load_lt _ _ _
  have hlow : clusterLow m entry < 65536 := Mem.load_lt _ _ _
  unfold stage2Cluster firstCluster
  dsimp only
  rw [show m.load (entry + 11 + 9) 2 = clusterHigh m entry from rfl,
    show m.load (entry + 11 + 15) 2 = clusterLow m entry from rfl, setLow_of_lt hlow]
  omega

/-- So does the first stage. -/
theorem stage1Cluster_eq : stage1Cluster m (entry + 11) = firstCluster m entry := by
  have hhigh : clusterHigh m entry < 65536 := Mem.load_lt _ _ _
  have hlow : clusterLow m entry < 65536 := Mem.load_lt _ _ _
  have hpop : stage1Cluster m (entry + 11) =
      clusterHigh m entry % 2 ^ 16 * 2 ^ 16 + clusterLow m entry % 2 ^ 16 := rfl
  rw [hpop, firstCluster]
  omega

/-- **All loaders start at the same cluster**, and so walk the same chain, exactly for the files below
cluster 65536: the kernel multiplies the high half by 0x100. -/
theorem first_cluster_iff (m : Mem) (entry : Nat) :
    (loadExecutableCluster m entry = firstCluster m entry ∧
      stage2Cluster m (entry + 11) = firstCluster m entry ∧
      stage1Cluster m (entry + 11) = firstCluster m entry ∧
      ∀ step n, chain step n (loadExecutableCluster m entry) = chain step n (firstCluster m entry) ∧
        chain step n (stage2Cluster m (entry + 11)) = chain step n (firstCluster m entry) ∧
        chain step n (stage1Cluster m (entry + 11)) = chain step n (firstCluster m entry)) ↔
      clusterHigh m entry = 0 := by
  have hkernel : loadExecutableCluster m entry = firstCluster m entry ↔ clusterHigh m entry = 0 := by
    unfold loadExecutableCluster firstCluster
    omega
  rw [stage2Cluster_eq, stage1Cluster_eq, hkernel]
  refine ⟨fun h => h.1, fun h => ⟨h, rfl, rfl, fun step n => ⟨?_, rfl, rfl⟩⟩⟩
  rw [hkernel.2 h]

end

/-- **A file at cluster 65538**: the kernel reads it from cluster 258 on. -/
theorem first_cluster_differs : ∃ m : Mem, clusterHigh m 0 = 1 ∧ clusterLow m 0 = 2 ∧
    loadExecutableCluster m 0 = 258 ∧ stage2Cluster m 11 = 65538 ∧ stage1Cluster m 11 = 65538 :=
  ⟨fun a => if a = 20 then 1 else if a = 26 then 2 else 0, by decide, by decide, by decide,
    by decide, by decide⟩

end Fat32
