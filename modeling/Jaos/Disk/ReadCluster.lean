import Jaos.Disk.Layout
import Jaos.Lib.Bytes

/-!
# Reading clusters (`kernel/fat32.c`, `kernel/read_sectors.asm`)

`read_cluster` and `read_file` on the drive. `Ata` is the drive as the ports show it: after a read
command it is busy for a while and then offers the words of the sectors that were asked for. `read`
transfers those of one sector, whatever the count (`read_eq`), and passes on 28 bits of the sector's
number and one that selects the drive. So a cluster arrives exactly if it is one sector below `2 ^ 28`
(`storesCluster_iff`), and a file if all its clusters are (`storesFile_iff`).
-/

namespace Fat32

open Lib

/-! ## The drive -/

/-- The drive: word `i` of a sector of the master or the slave, how often the status shows no data after
each command, the registers, and the words to be transferred. -/
structure Ata where
  data : (slave : Bool) → (lba i : Nat) → BitVec 16
  busy : Nat → Nat
  commands : Nat
  count : Nat
  low : Nat
  mid : Nat
  high : Nat
  select : Nat
  pending : List (BitVec 16)

namespace Ata

/-- The number of sectors; 0 stands for 256. -/
def sectors (d : Ata) : Nat := if d.count = 0 then 256 else d.count

def lba (d : Ata) : Nat := d.low + d.mid * 2 ^ 8 + d.high * 2 ^ 16 + d.select % 16 * 2 ^ 24

def slave (d : Ata) : Bool := d.select / 16 % 2 = 1

/-- The words of a sector. -/
def sector (d : Ata) (lba : Nat) : List (BitVec 16) := (List.range 256).map (d.data d.slave lba)

/-- `out dx, al`. -/
def out (port value : Nat) (d : Ata) : Ata :=
  if port = 0x1f2 then { d with count := value }
  else if port = 0x1f3 then { d with low := value }
  else if port = 0x1f4 then { d with mid := value }
  else if port = 0x1f5 then { d with high := value }
  else if port = 0x1f6 then { d with select := value }
  else if port = 0x1f7 ∧ value = 0x20 then
    { d with
      commands := d.commands + 1
      pending := (List.range d.sectors).flatMap fun k => d.sector (d.lba + k) }
  else d

/-- The loop `still_going` on a drive that shows no data the next `busy` times. If there will be none,
it does not end. -/
def stillGoing : (busy : Nat) → Ata → Option Ata
  | busy + 1, d => stillGoing busy d
  | 0, d => if d.pending = [] then none else some d

end Ata

/-- `rep insw` with `rcx`. -/
def insw : (rcx rdi : Nat) → Mem × Ata → Mem × Ata
  | 0, _, x => x
  | rcx + 1, rdi, x =>
    insw rcx (rdi + 2)
      (x.1.store rdi 2 (x.2.pending.headD 0).toNat, { x.2 with pending := x.2.pending.tail })

/-! ## `read_sectors` -/

def bswap (x : Nat) : Nat :=
  x % 2 ^ 8 * 2 ^ 24 + x / 2 ^ 8 % 2 ^ 8 * 2 ^ 16 + x / 2 ^ 16 % 2 ^ 8 * 2 ^ 8 + x / 2 ^ 24 % 2 ^ 8

/-- `read`: the memory and the drive afterwards. `rax` is 1 then, since nothing sets the carry. -/
def read (rax rdi dl : Nat) (x : Mem × Ata) : Option (Mem × Ata) :=
  let ecx := rax % 2 ^ 32
  let d := x.2.out 0x1f2 dl
  let d := d.out 0x1f3 (ecx % 2 ^ 8)
  let d := d.out 0x1f4 (ecx / 2 ^ 8 % 2 ^ 8)
  let ecx := bswap ecx
  let d := d.out 0x1f5 (ecx / 2 ^ 8 % 2 ^ 8)
  let d := d.out 0x1f6 (ecx % 2 ^ 8 ||| 0xe0)
  let d := d.out 0x1f7 0x20
  (d.stillGoing (d.busy d.commands)).map fun d => insw (512 / 2) rdi (x.1, d)

/-- `read_sectors`. -/
def readSectors (lba address size : Nat) (x : Mem × Ata) : Option (Mem × Ata) :=
  read lba address (size % 2 ^ 8) x

/-! ## `read_cluster` and `read_file` -/

/-- `_cluster_begin_lba` and the fields of `_partition` that are used. -/
structure Partition where
  clusterBegin : Nat
  sectorsPerCluster : BitVec 8
  bytesPerSector : BitVec 16

namespace Partition

/-- The number of bytes of a cluster. -/
def clusterSize (p : Partition) : Nat := p.sectorsPerCluster.toNat * p.bytesPerSector.toNat

/-- The sector at which a cluster starts. -/
def lba (p : Partition) (cluster : Nat) : Nat :=
  cluster2lba p.clusterBegin p.sectorsPerCluster.toNat cluster

end Partition

/-- `read_cluster`. -/
def readCluster (p : Partition) (cluster address : Nat) (x : Mem × Ata) : Option (Mem × Ata) :=
  readSectors (p.lba cluster) address p.sectorsPerCluster.toNat x

/-- `read_file`, where `next k` is `find_next_cluster` up to the end of the chain when it is called for
the time `k`. -/
def readFile (p : Partition) (next : Nat → Nat → Option Nat) :
    (fuel k cluster address : Nat) → Mem × Ata → Option (Mem × Ata)
  | 0, _, _, _, _ => none
  | fuel + 1, k, cluster, address, x =>
    (readCluster p cluster address x).bind fun x =>
      match next k cluster with
      | none => some x
      | some c => readFile p next fuel (k + 1) c (address + p.clusterSize) x

/-! ## What should arrive -/

/-- Byte `i` of the sectors from `lba` on, on the first drive. -/
def Ata.byte (d : Ata) (lba i : Nat) : UInt8 :=
  byteOf (i % 2) (d.data false (lba + i / 512) (i % 512 / 2)).toNat

/-- **`read_cluster` stores the cluster** and nothing else, whatever is on the disk and in memory. -/
def StoresCluster (p : Partition) (cluster : Nat) : Prop :=
  ∀ address m d, ∃ m' d', readCluster p cluster address (m, d) = some (m', d') ∧
    (∀ i, i < p.clusterSize → m' (address + i) = d.byte (p.lba cluster) i) ∧
    ∀ a, a < address ∨ address + p.clusterSize ≤ a → m' a = m a

/-- `cs` is a whole chain; the lookups start with number `k`. -/
def IsChain (next : Nat → Nat → Option Nat) : (k : Nat) → List Nat → Prop
  | _, [] => False
  | k, [c] => next k c = none
  | k, c :: c' :: cs => next k c = some c' ∧ IsChain next (k + 1) (c' :: cs)

/-- **`read_file` stores the clusters** of a chain one after the other, and nothing else. -/
def StoresFile (p : Partition) (next : Nat → Nat → Option Nat) (cs : List Nat) : Prop :=
  ∀ address m d, ∃ fuel m' d', readFile p next fuel 0 (cs.headD 0) address (m, d) = some (m', d') ∧
    (∀ k c, cs[k]? = some c → ∀ i, i < p.clusterSize →
      m' (address + k * p.clusterSize + i) = d.byte (p.lba c) i) ∧
    ∀ a, a < address ∨ address + cs.length * p.clusterSize ≤ a → m' a = m a

/-! ## One sector -/

/-- What `read` transfers for a sector number: 28 bits of it, and one that selects the drive. -/
def sentByte (d : Ata) (lba i : Nat) : UInt8 :=
  byteOf (i % 2) (d.data (lba / 2 ^ 28 % 2 = 1) (lba % 2 ^ 28) (i / 2)).toNat

/-- Memory with 512 bytes at an address. -/
def overlay (m : Mem) (address : Nat) (f : Nat → UInt8) : Mem := fun a =>
  if address ≤ a ∧ a < address + 512 then f (a - address) else m a

section
variable {m m' : Mem} {d d' : Ata} {a i k n lba address rcx rdi dl : Nat} {p : Partition}
  {next : Nat → Nat → Option Nat} {c : Nat} {cs : List Nat}

theorem store_two (v : Nat) :
    m.store rdi 2 v a = if a = rdi + 1 then byteOf 1 v else if a = rdi then byteOf 0 v else m a := by
  simp only [Mem.store, Mem.set, byteOf, Nat.pow_zero, Nat.div_one, Nat.pow_one]

/-- The words that `insw` stores. -/
theorem insw_mem (h : rcx ≤ d.pending.length) : (insw rcx rdi (m, d)).1 a =
    if rdi ≤ a ∧ a < rdi + 2 * rcx then
      byteOf ((a - rdi) % 2) (d.pending.getD ((a - rdi) / 2) 0).toNat
    else m a := by
  induction rcx generalizing rdi m d with
  | zero => rw [insw, if_neg (by omega)]
  | succ rcx ih =>
    obtain ⟨w, ws, hp⟩ : ∃ w ws, d.pending = w :: ws := by
      cases hp : d.pending with
      | nil =>
        rw [hp] at h
        cases h
      | cons w ws => exact ⟨w, ws, rfl⟩
    rw [hp, List.length_cons] at h
    rw [insw, ih (by rw [hp]; exact Nat.le_of_succ_le_succ h), store_two, hp]
    dsimp only [List.headD, List.tail]
    by_cases hin : rdi + 2 ≤ a ∧ a < rdi + 2 + 2 * rcx
    · rw [if_pos hin, if_pos (by omega), show a - rdi = a - (rdi + 2) + 2 by omega,
        Nat.add_mod_right, Nat.add_div_right _ (by decide), List.getD_cons_succ]
    · rw [if_neg hin]
      by_cases h1 : a = rdi + 1
      · subst h1
        rw [if_pos rfl, if_pos (by omega), Nat.add_sub_cancel_left]
        rfl
      · rw [if_neg h1]
        by_cases h0 : a = rdi
        · subst h0
          rw [if_pos rfl, if_pos (by omega), Nat.sub_self]
          rfl
        · rw [if_neg h0, if_neg (by omega)]

theorem insw_data : (insw rcx rdi (m, d)).2.data = d.data := by
  induction rcx generalizing rdi m d with
  | zero => rfl
  | succ rcx ih => exact ih

theorem stillGoing_eq (h : d.pending ≠ []) : d.stillGoing n = some d := by
  induction n with
  | zero => exact if_neg h
  | succ n ih => exact ih

/-- The drive register. -/
theorem select_spec : ∀ b, b < 256 →
    (b ||| 0xe0) % 16 = b % 16 ∧ (b ||| 0xe0) / 16 % 2 = b / 16 % 2 := by
  decide +kernel

theorem bswap_bytes (h : k < 2 ^ 32) :
    bswap k / 2 ^ 8 % 2 ^ 8 = k / 2 ^ 16 % 2 ^ 8 ∧ bswap k % 2 ^ 8 = k / 2 ^ 24 := by
  have h0 := Nat.mod_lt k (show 0 < 2 ^ 8 by decide)
  have h1 := Nat.mod_lt (k / 2 ^ 8) (show 0 < 2 ^ 8 by decide)
  have h2 := Nat.mod_lt (k / 2 ^ 16) (show 0 < 2 ^ 8 by decide)
  have h3 : k / 2 ^ 24 < 2 ^ 8 := by omega
  unfold bswap
  rw [Nat.mod_eq_of_lt h3]
  generalize k % 2 ^ 8 = b0 at *
  generalize k / 2 ^ 8 % 2 ^ 8 = b1 at *
  generalize k / 2 ^ 16 % 2 ^ 8 = b2 at *
  generalize k / 2 ^ 24 = b3 at *
  omega

/-- The first words that are offered are those of the first sector. -/
theorem sectors_words (hi : i < 256) (hn : n ≠ 0) :
    256 ≤ ((List.range n).flatMap fun k => d.sector (lba + k)).length ∧
      ((List.range n).flatMap fun k => d.sector (lba + k)).getD i 0 = d.data d.slave lba i := by
  obtain ⟨n, rfl⟩ : ∃ k, n = k + 1 := ⟨n - 1, by omega⟩
  have hlen : (d.sector lba).length = 256 := by simp [Ata.sector]
  rw [List.range_succ_eq_map, List.flatMap_cons, Nat.add_zero]
  refine ⟨by rw [List.length_append, hlen]; omega, ?_⟩
  rw [List.getD_eq_getElem?_getD, List.getElem?_append_left (by omega)]
  simp [Ata.sector, hi]

/-- **`read` transfers one sector**, whatever the count. -/
theorem read_eq (rax rdi dl : Nat) (m : Mem) (d : Ata) : ∃ d',
    read rax rdi dl (m, d) = some (overlay m rdi (sentByte d rax), d') ∧ d'.data = d.data := by
  have hecx : rax % 2 ^ 32 < 2 ^ 32 := Nat.mod_lt _ (by decide)
  obtain ⟨hhigh, htop⟩ := bswap_bytes hecx
  obtain ⟨hsel, hdrive⟩ := select_spec (rax % 2 ^ 32 / 2 ^ 24) (by omega)
  unfold read
  dsimp only
  rw [hhigh, htop]
  -- the registers at the command
  generalize hd1 : Ata.out 0x1f6 _ _ = d1
  have hregs : d1.data = d.data ∧ d1.lba = rax % 2 ^ 28 ∧ d1.slave = decide (rax / 2 ^ 28 % 2 = 1) := by
    subst hd1
    refine ⟨rfl, ?_, ?_⟩
    · show rax % 2 ^ 32 % 2 ^ 8 + rax % 2 ^ 32 / 2 ^ 8 % 2 ^ 8 * 2 ^ 8 +
        rax % 2 ^ 32 / 2 ^ 16 % 2 ^ 8 * 2 ^ 16 + (rax % 2 ^ 32 / 2 ^ 24 ||| 0xe0) % 16 * 2 ^ 24 = _
      rw [hsel]
      omega
    · show decide ((rax % 2 ^ 32 / 2 ^ 24 ||| 0xe0) / 16 % 2 = 1) = _
      rw [hdrive, show rax % 2 ^ 32 / 2 ^ 24 / 16 % 2 = rax / 2 ^ 28 % 2 by omega]
  obtain ⟨hdata, hlba, hslave⟩ := hregs
  have hne : d1.sectors ≠ 0 := by
    unfold Ata.sectors
    split
    · decide
    · assumption
  have hlen := (@sectors_words d1 0 _ d1.lba (by decide) hne).1
  -- the drive after the command
  generalize hd2 : Ata.out 0x1f7 0x20 d1 = d2
  have hpending : d2.pending = (List.range d1.sectors).flatMap fun k => d1.sector (d1.lba + k) := by
    rw [← hd2]
    rfl
  have hdata2 : d2.data = d.data := by
    rw [← hd2, ← hdata]
    rfl
  rw [← hpending] at hlen
  have hmem : (insw (512 / 2) rdi (m, d2)).1 = overlay m rdi (sentByte d rax) := by
    funext a
    rw [insw_mem hlen, hpending]
    unfold overlay sentByte
    by_cases ha : rdi ≤ a ∧ a < rdi + 512
    · rw [if_pos ha, if_pos ha, (sectors_words (by omega) hne).2, hdata, hlba, hslave]
    · rw [if_neg ha, if_neg ha]
  have hsame : (insw (512 / 2) rdi (m, d2)).2.data = d2.data := insw_data
  rw [stillGoing_eq fun hp => ?_, Option.map_some]
  · generalize insw (512 / 2) rdi (m, d2) = x at *
    rw [← hmem]
    exact ⟨x.2, rfl, hsame.trans hdata2⟩
  · rw [hp] at hlen
    cases hlen

/-- What is sent for a sector of 28 bits is what is asked for. -/
theorem sentByte_eq (hlba : lba < 2 ^ 28) (hi : i < 512) : sentByte d lba i = d.byte lba i := by
  unfold sentByte Ata.byte
  rw [Nat.div_eq_of_lt hlba, Nat.mod_eq_of_lt hlba, Nat.div_eq_of_lt hi, Nat.mod_eq_of_lt hi]
  rfl

theorem sentByte_congr (h : d'.data = d.data) : sentByte d' lba = sentByte d lba := by
  funext i
  rw [sentByte, h]
  rfl

theorem readCluster_eq (p : Partition) (c address : Nat) (m : Mem) (d : Ata) : ∃ d',
    readCluster p c address (m, d) = some (overlay m address (sentByte d (p.lba c)), d') ∧
      d'.data = d.data :=
  read_eq _ _ _ _ _

/-! ## A cluster -/

/-- A drive with one word that is not 0, at the start of a sector. -/
def markedDrive (lba : Nat) : Ata where
  data := fun slave l i => if slave = false ∧ l = lba ∧ i = 0 then 1 else 0
  busy := fun _ => 0
  commands := 0
  count := 0
  low := 0
  mid := 0
  high := 0
  select := 0
  pending := []

/-- The mark is not found where the number of the sector does not fit. -/
theorem sentByte_marked (h : 2 ^ 28 ≤ lba) : sentByte (markedDrive lba) lba 0 = 0 := by
  have hlt : lba % 2 ^ 28 < 2 ^ 28 := Nat.mod_lt _ (by decide)
  have hword : (markedDrive lba).data (lba / 2 ^ 28 % 2 = 1) (lba % 2 ^ 28) (0 / 2) = 0 :=
    if_neg fun hc => by omega
  rw [sentByte, hword]
  rfl

theorem byte_marked (h0 : i % 512 = 0) : (markedDrive (lba + i / 512)).byte lba i = 1 := by
  have hword : (markedDrive (lba + i / 512)).data false (lba + i / 512) (i % 512 / 2) = 1 :=
    if_pos ⟨rfl, rfl, by omega⟩
  rw [Ata.byte, hword, show i % 2 = 0 by omega]
  rfl

theorem byte_marked_zero : (markedDrive lba).byte lba 0 = 1 := by
  have h : (markedDrive (lba + 0 / 512)).byte lba 0 = 1 := byte_marked (by decide)
  rwa [Nat.zero_div, Nat.add_zero] at h

theorem clusterSize_eq (h512 : p.bytesPerSector = 512) :
    p.clusterSize = p.sectorsPerCluster.toNat * 512 := by
  rw [Partition.clusterSize, h512]
  rfl

/-- **`read_cluster` delivers the whole cluster** exactly if it has one sector, below `2 ^ 28`. -/
theorem storesCluster_iff (h512 : p.bytesPerSector = 512) (hn : 1 ≤ p.sectorsPerCluster.toNat) :
    StoresCluster p c ↔ p.sectorsPerCluster.toNat = 1 ∧ p.lba c < 2 ^ 28 := by
  have hsize := clusterSize_eq h512
  constructor
  · intro h
    refine ⟨?_, ?_⟩
    · -- the second sector does not arrive
      refine Classical.byContradiction fun hne => ?_
      obtain ⟨m', d', hrun, hbytes, -⟩ := h 0 (fun _ => 0) (markedDrive (p.lba c + 512 / 512))
      obtain ⟨d1, hrun', -⟩ :=
        readCluster_eq p c 0 (fun _ => 0) (markedDrive (p.lba c + 512 / 512))
      rw [hrun] at hrun'
      cases hrun'
      have h512 := hbytes 512 (by omega)
      rw [byte_marked (by decide), overlay, if_neg (by omega)] at h512
      revert h512
      decide
    · refine Classical.byContradiction fun hge => ?_
      obtain ⟨m', d', hrun, hbytes, -⟩ := h 0 (fun _ => 0) (markedDrive (p.lba c))
      obtain ⟨d1, hrun', -⟩ := readCluster_eq p c 0 (fun _ => 0) (markedDrive (p.lba c))
      rw [hrun] at hrun'
      cases hrun'
      have h0 := hbytes 0 (by omega)
      rw [byte_marked_zero, overlay, if_pos (by omega), Nat.zero_add, Nat.sub_zero,
        sentByte_marked (Nat.le_of_not_lt hge)] at h0
      revert h0
      decide
  · rintro ⟨h1, hlba⟩ address m d
    obtain ⟨d', hrun, -⟩ := readCluster_eq p c address m d
    refine ⟨_, d', hrun, fun i hi => ?_, fun a ha => ?_⟩
    · rw [overlay, if_pos (by omega), Nat.add_sub_cancel_left, sentByte_eq hlba (by omega)]
    · rw [overlay, if_neg (by omega)]

/-! ## A file -/

/-- What `read_file` makes of memory. -/
def readChain (p : Partition) (d : Ata) : (cs : List Nat) → (address : Nat) → Mem → Mem
  | [], _, m => m
  | c :: cs, address, m =>
    readChain p d cs (address + p.clusterSize) (overlay m address (sentByte d (p.lba c)))

theorem readChain_congr (h : d'.data = d.data) : readChain p d' cs address m = readChain p d cs address m := by
  induction cs generalizing address m with
  | nil => rfl
  | cons c cs ih => rw [readChain, readChain, sentByte_congr h, ih]

/-- **`read_file` follows the chain.** -/
theorem readFile_eq (address : Nat) (m : Mem) (d : Ata) (hc : IsChain next k (c :: cs)) : ∃ d',
    readFile p next (cs.length + 1) k c address (m, d) = some (readChain p d (c :: cs) address m, d') := by
  induction cs generalizing k c address m d with
  | nil =>
    obtain ⟨d1, hrun, -⟩ := readCluster_eq p c address m d
    refine ⟨d1, ?_⟩
    rw [List.length_nil, readFile, hrun, Option.bind_some, show next k c = none from hc]
    rfl
  | cons c' cs ih =>
    obtain ⟨hnext, hc⟩ := hc
    obtain ⟨d1, hrun, hd1⟩ := readCluster_eq p c address m d
    obtain ⟨d2, h2⟩ := ih (address + p.clusterSize) (overlay m address (sentByte d (p.lba c))) d1 hc
    refine ⟨d2, ?_⟩
    rw [List.length_cons, readFile, hrun, Option.bind_some, hnext]
    dsimp only
    rw [h2, readChain_congr hd1]
    rfl

theorem readFile_mono {fuel fuel' : Nat} {x r : Mem × Ata}
    (h : readFile p next fuel k c address x = some r) (hle : fuel ≤ fuel') :
    readFile p next fuel' k c address x = some r := by
  induction fuel generalizing fuel' k c address x with
  | zero => cases h
  | succ fuel ih =>
    obtain ⟨f, rfl⟩ : ∃ f, fuel' = f + 1 := ⟨fuel' - 1, by omega⟩
    obtain ⟨y, hy, h⟩ := Option.bind_eq_some_iff.1 h
    rw [readFile, hy, Option.bind_some]
    cases hnext : next k c with
    | none =>
      rw [hnext] at h
      exact h
    | some c' =>
      rw [hnext] at h
      exact ih h (by omega)

/-- A file that is stored, in terms of `readChain`. -/
theorem StoresFile.bytes (h : StoresFile p next (c :: cs)) (hc : IsChain next 0 (c :: cs)) (d : Ata)
    {c' : Nat} (hk : (c :: cs)[k]? = some c') (hi : i < p.clusterSize) :
    readChain p d (c :: cs) 0 (fun _ => 0) (k * p.clusterSize + i) = d.byte (p.lba c') i := by
  obtain ⟨fuel, m', d', hrun, hbytes, -⟩ := h 0 (fun _ => 0) d
  obtain ⟨d1, hrun'⟩ := readFile_eq (p := p) 0 (fun _ => 0) d hc
  have h1 := readFile_mono hrun (Nat.le_max_left fuel (cs.length + 1))
  rw [List.headD_cons, readFile_mono hrun' (Nat.le_max_right fuel _)] at h1
  cases h1
  have := hbytes k c' hk i hi
  rwa [Nat.zero_add] at this

/-- Memory outside the first sectors of the clusters. -/
theorem readChain_out {a : Nat} (h : ∀ k, k < cs.length →
    a < address + k * p.clusterSize ∨ address + k * p.clusterSize + 512 ≤ a) :
    readChain p d cs address m a = m a := by
  induction cs generalizing address m with
  | nil => rfl
  | cons c cs ih =>
    rw [readChain, ih fun k hk => ?_, overlay, if_neg]
    · have := h 0 (Nat.zero_lt_succ _)
      omega
    · have := h (k + 1) (Nat.succ_lt_succ hk)
      rwa [Nat.succ_mul, Nat.add_comm (k * _), ← Nat.add_assoc] at this

/-- The first sector of a cluster. -/
theorem readChain_at (hn : 512 ≤ p.clusterSize) (hk : cs[k]? = some c) (hi : i < 512) :
    readChain p d cs address m (address + k * p.clusterSize + i) = sentByte d (p.lba c) i := by
  induction cs generalizing address m k with
  | nil => cases hk
  | cons c' cs ih =>
    rw [readChain]
    cases k with
    | zero =>
      obtain rfl : c' = c := Option.some.inj hk
      rw [Nat.zero_mul, Nat.add_zero, readChain_out fun k _ => .inl (by omega), overlay,
        if_pos (by omega), Nat.add_sub_cancel_left]
    | succ k =>
      rw [Nat.succ_mul, Nat.add_comm (k * _), ← Nat.add_assoc address]
      exact ih hk

/-- **`read_file` delivers whole clusters** exactly if each has one sector, below `2 ^ 28`. -/
theorem storesFile_iff (h512 : p.bytesPerSector = 512) (hn : 1 ≤ p.sectorsPerCluster.toNat)
    (hc : IsChain next 0 cs) :
    StoresFile p next cs ↔
      p.sectorsPerCluster.toNat = 1 ∧ ∀ c ∈ cs, p.lba c < 2 ^ 28 := by
  have hsize := clusterSize_eq h512
  obtain ⟨c0, cs, rfl⟩ : ∃ c l, cs = c :: l := by
    cases cs with
    | nil => exact hc.elim
    | cons c l => exact ⟨c, l, rfl⟩
  constructor
  · intro h
    refine ⟨?_, fun c hmem => ?_⟩
    · -- behind the first sector of the first cluster nothing arrives
      refine Classical.byContradiction fun hne => ?_
      have h512 := h.bytes hc (markedDrive (p.lba c0 + 512 / 512)) (k := 0) rfl
        (show 512 < p.clusterSize by omega)
      rw [byte_marked (by decide), readChain_out fun k _ => ?_] at h512
      · revert h512
        decide
      · have hmul : k = 0 ∨ p.clusterSize ≤ k * p.clusterSize := by
          rcases Nat.eq_zero_or_pos k with h0 | h0
          · exact .inl h0
          · exact .inr (Nat.le_mul_of_pos_left _ h0)
        rcases hmul with rfl | hmul <;> omega
    · refine Classical.byContradiction fun hge => ?_
      obtain ⟨k, hk⟩ := List.getElem?_of_mem hmem
      have h0 := h.bytes hc (markedDrive (p.lba c)) hk (show 0 < p.clusterSize by omega)
      have hat := @readChain_at (fun _ => 0) (markedDrive (p.lba c)) 0 k 0 p c (c0 :: cs) (by omega) hk
        (by decide)
      rw [Nat.zero_add] at hat
      rw [hat, byte_marked_zero, sentByte_marked (Nat.le_of_not_lt hge)] at h0
      revert h0
      decide
  · rintro ⟨h1, hlba⟩ address m d
    obtain ⟨d', hrun⟩ := readFile_eq (p := p) address m d hc
    refine ⟨_, _, d', hrun, fun k c hk i hi => ?_, fun a ha => readChain_out fun k hk => ?_⟩
    · rw [readChain_at (by omega) hk (by omega),
        sentByte_eq (hlba c (List.mem_of_getElem? hk)) (by omega)]
    · have hle : (k + 1) * p.clusterSize ≤ (c0 :: cs).length * p.clusterSize :=
        Nat.mul_le_mul_right _ hk
      rw [Nat.succ_mul] at hle
      omega

/-- **Whole clusters** arrive, one at a time and along a chain, exactly if a cluster has one sector and
all that are read lie below sector `2 ^ 28`. -/
theorem whole_clusters_iff (h512 : p.bytesPerSector = 512) (hn : 1 ≤ p.sectorsPerCluster.toNat)
    (hc : IsChain next 0 cs) :
    (∀ c ∈ cs, StoresCluster p c) ∧ StoresFile p next cs ↔
      p.sectorsPerCluster.toNat = 1 ∧ ∀ c ∈ cs, p.lba c < 2 ^ 28 := by
  rw [storesFile_iff h512 hn hc]
  refine ⟨fun h => h.2, fun h => ⟨fun c hm => ?_, h⟩⟩
  exact (storesCluster_iff h512 hn).2 ⟨h.1, h.2 c hm⟩

end

/-- A chain of two clusters of one sector. -/
theorem whole_clusters_small : StoresCluster ⟨1000, 1, 512⟩ 5 ∧
    StoresFile ⟨1000, 1, 512⟩ (fun _ c => if c = 5 then some 6 else none) [5, 6] := by
  have hc : IsChain (fun _ c => if c = 5 then some 6 else none) 0 [5, 6] := ⟨rfl, rfl⟩
  have h := (whole_clusters_iff (p := ⟨1000, 1, 512⟩) rfl (by decide) hc).2 ⟨rfl, by decide⟩
  exact ⟨h.1 5 (by decide), h.2⟩

/-- **Two sectors a cluster**: the second one is not stored. -/
theorem second_sector_lost : ∃ m d,
    readCluster ⟨1000, 2, 512⟩ 2 0 (fun _ => 0, markedDrive 1001) = some (m, d) ∧ m 512 = 0 ∧
      (markedDrive 1001).byte (Partition.lba ⟨1000, 2, 512⟩ 2) 512 = 1 ∧
      ¬ StoresCluster ⟨1000, 2, 512⟩ 2 := by
  obtain ⟨d, hrun, -⟩ := readCluster_eq ⟨1000, 2, 512⟩ 2 0 (fun _ => 0) (markedDrive 1001)
  refine ⟨_, d, hrun, if_neg (by decide), by decide, fun h => ?_⟩
  exact absurd ((storesCluster_iff rfl (by decide)).1 h).1 (by decide)

end Fat32
