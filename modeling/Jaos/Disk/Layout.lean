import Jaos.Lib.Register
import Jaos.Lib.Word

/-!
# The layout of the volume (`kernel/fat32.c`, `boot/stage1.asm`, `boot/diskio.asm`, `boot/diskio64.asm`)

Where the FAT and the clusters start, as the kernel and the first stage compute it from the partition
table and the volume id, and the sector of a cluster. The second stage uses the two numbers that the
first one has left on its stack. Registers of 32 bits wrap; `add bx` adds the reserved sectors to the
low half of the start of the partition only, which is where the two differ (`layout_iff`).
-/

namespace Fat32

open Lib

/-- The fields of `fat32_volume_id` that the layout depends on. -/
structure VolumeId where
  sectorsPerCluster : BitVec 8
  reservedSectors : BitVec 16
  numberOfFats : BitVec 8
  sectorsPerFat2 : BitVec 32

/-! ## The kernel -/

/-- `_fat_begin_lba` after `fat32_init`, where `lba` is that of the first partition. -/
def fatBeginLba (id : VolumeId) (lba : BitVec 32) : Nat :=
  add64 lba.toNat id.reservedSectors.toNat

/-- `_cluster_begin_lba` after `fat32_init`; the product is an `unsigned int`. -/
def clusterBeginLba (id : VolumeId) (lba : BitVec 32) : Nat :=
  add64 (add64 lba.toNat id.reservedSectors.toNat)
    (id.numberOfFats.toNat * id.sectorsPerFat2.toNat % 2 ^ 32)

/-- `cluster2lba`. -/
def cluster2lba (clusterBegin sectorsPerCluster cluster : Nat) : Nat :=
  add64 clusterBegin (sub64 cluster 2 * sectorsPerCluster % 2 ^ 64)

/-! ## The boot loader -/

/-- `fat_begin_lba` of the first stage: `ebx` when it is pushed. -/
def bootFatBegin (id : VolumeId) (lba : BitVec 32) : Nat :=
  addLow 16 lba.toNat id.reservedSectors.toNat

/-- `cluster_begin_lba` of the first stage; `ecx` is clear above `cl`. -/
def bootClusterBegin (id : VolumeId) (lba : BitVec 32) : Nat :=
  let ebx := bootFatBegin id lba
  let eax := id.sectorsPerFat2.toNat
  let ecx := id.numberOfFats.toNat
  let eax := eax * ecx % 2 ^ 32
  (ebx + eax) % 2 ^ 32

/-- `clusterLBA` of the first stage and `cluster2lba` of the second. -/
def clusterLBA (clusterBegin sectorsPerCluster eax : Nat) : Nat :=
  let eax := (eax + (2 ^ 32 - 1)) % 2 ^ 32
  let eax := (eax + (2 ^ 32 - 1)) % 2 ^ 32
  let ecx := sectorsPerCluster
  let eax := eax * ecx % 2 ^ 32
  (eax + clusterBegin) % 2 ^ 32

/-! ## Agreement -/

/-- **The kernel and the boot loader find the FAT and the cluster in the same place**, modulo
`2 ^ 32`. -/
structure SameLayout (id : VolumeId) (lba : BitVec 32) (cluster : BitVec 32) : Prop where
  fat : bootFatBegin id lba = fatBeginLba id lba % 2 ^ 32
  clusters : bootClusterBegin id lba = clusterBeginLba id lba % 2 ^ 32
  cluster : clusterLBA (bootClusterBegin id lba) id.sectorsPerCluster.toNat cluster.toNat =
    cluster2lba (clusterBeginLba id lba) id.sectorsPerCluster.toNat cluster.toNat % 2 ^ 32

section
variable {id : VolumeId} {lba cluster : BitVec 32}

/-- From the same start of the clusters, the same sector. -/
theorem clusterLBA_eq {b b' n c : Nat} (hb : b = b' % 2 ^ 32) :
    clusterLBA b n c = cluster2lba b' n c % 2 ^ 32 := by
  have h64 : (2 : Nat) ^ 32 ∣ 2 ^ 64 := by decide
  have hsub : sub64 c 2 % 2 ^ 32 = (c + (2 ^ 32 - 1) + (2 ^ 32 - 1)) % 2 ^ 32 := by
    unfold sub64
    omega
  have hmul : sub64 c 2 * n % 2 ^ 32 = (c + (2 ^ 32 - 1) + (2 ^ 32 - 1)) % 2 ^ 32 * n % 2 ^ 32 := by
    rw [Nat.mul_mod, hsub, ← Nat.mul_mod, Nat.mod_mul_mod]
  have hdec : ((c + (2 ^ 32 - 1)) % 2 ^ 32 + (2 ^ 32 - 1)) % 2 ^ 32 =
      (c + (2 ^ 32 - 1) + (2 ^ 32 - 1)) % 2 ^ 32 := Nat.mod_add_mod _ _ _
  unfold clusterLBA cluster2lba add64
  dsimp only
  rw [hdec, ← hmul, Nat.mod_mod_of_dvd _ h64, Nat.add_mod b', Nat.mod_mod_of_dvd _ h64, ← hb,
    Nat.add_mod (_ % _) b, Nat.mod_mod, Nat.add_comm (_ % _) (b % _)]
  subst hb
  rw [Nat.mod_mod]

/-- **Where the layouts agree**: the low half of the start of the partition and the reserved sectors
add without a carry. -/
theorem layout_iff : SameLayout id lba cluster ↔
    lba.toNat % 2 ^ 16 + id.reservedSectors.toNat < 2 ^ 16 := by
  have hlba := lba.isLt
  have hres := id.reservedSectors.isLt
  have hfat : fatBeginLba id lba = lba.toNat + id.reservedSectors.toNat := add64_of_lt (by omega)
  refine ⟨fun h => ?_, fun h => ?_⟩
  · have hsame := h.fat
    rw [hfat, bootFatBegin, addLow, setLow] at hsame
    omega
  · have hboot : bootFatBegin id lba = lba.toNat + id.reservedSectors.toNat := addLow_eq_iff.2 h
    have hclusters : bootClusterBegin id lba = clusterBeginLba id lba % 2 ^ 32 := by
      unfold bootClusterBegin clusterBeginLba
      dsimp only
      rw [hboot, Nat.mul_comm id.sectorsPerFat2.toNat]
      unfold add64
      omega
    refine ⟨?_, hclusters, clusterLBA_eq hclusters⟩
    rw [hboot, hfat, Nat.mod_eq_of_lt (by omega)]

end

/-- 32 reserved sectors, two FATs of 1000 sectors, clusters of one sector. -/
def plainVolume : VolumeId := ⟨1, 32, 2, 1000⟩

/-- **A partition that starts at sector 65535**: the carry of the 32 reserved sectors is lost, and the
boot loader looks for the FAT at sector 31. -/
theorem layout_differs : bootFatBegin plainVolume 65535 = 31 ∧
    fatBeginLba plainVolume 65535 = 65567 ∧ ¬ SameLayout plainVolume 65535 2 :=
  ⟨by decide, by decide, fun h => absurd h.fat (by decide)⟩

end Fat32
