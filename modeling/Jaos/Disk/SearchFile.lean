import Jaos.Disk.FindFile
import Jaos.Lib.Labels

/-!
# Looking up the kernel in the boot loader (`boot/diskio64.asm`)

`searchFile` of the second stage, block by block. It keeps the current cluster on the stack while it
compares the entries of the buffer with `fileName`. Behind the last entry it jumps to `notFound`, and
no block jumps to `nextRoot` (`step_ne_nextRoot`): the next cluster is never read, and `ret` takes the
cluster for the address of its caller. So the search ends well exactly if the file is in the first sector
of the directory (`searches_directory_iff`).
-/

namespace Fat32

open Lib

/-- What the blocks read: `[cluster_begin_lba]` and the sectors per cluster, `[fat_begin_lba]`,
`[FAT32.root_cluster]` and the bytes at `fileName`. -/
structure Stage2 where
  part : Partition
  fatBegin : BitVec 32
  rootCluster : Nat
  fileName : Nat → UInt8

namespace Stage2

def buffer : Nat := 0x10000

/-- `[bytes_per_cluster]`, a word: the first stage multiplies in 16 bits. -/
def bytesPerCluster (b : Stage2) : Nat := b.part.clusterSize % 2 ^ 16

/-- `cluster2lba`. -/
def lba (b : Stage2) (eax : Nat) : Nat :=
  clusterLBA (b.part.clusterBegin % 2 ^ 32) b.part.sectorsPerCluster.toNat (eax % 2 ^ 32)

/-- `getNextCluster`: `rax` and the carry flag. -/
def getNextCluster (b : Stage2) (rax : Nat) (x : Mem × Ata) : Option ((Nat × Bool) × Mem × Ata) :=
  let eax := rax &&& fatClusterMask
  if fatEof ≤ eax then some ((eax, true), x)
  else
    let ebx := b.part.bytesPerSector.toNat >>> 2
    let edx := eax % ebx
    let eax := (eax / ebx + b.fatBegin.toNat) % 2 ^ 32
    (read eax buffer 1 x).map fun x =>
      let eax := x.1.load (buffer + edx * 4) 4 &&& fatClusterMask
      ((eax, decide (fatEof ≤ eax)), x)

/-- The cluster that `getNextCluster` finds on the drive. -/
def next (b : Stage2) (d : Ata) (cluster : Nat) : Option Nat :=
  (b.getNextCluster cluster (fun _ => 0, d)).bind fun r => if r.1.2 then none else some r.1.1

end Stage2

/-! ## The blocks -/

/-- The registers, the stack, memory and the drive. -/
structure Cpu where
  disk : Mem × Ata
  stack : List Nat
  rax : Nat
  rbx : Nat
  carry : Bool

def Cpu.push (s : Cpu) (v : Nat) : Cpu := { s with stack := v :: s.stack }

def Cpu.pop (s : Cpu) : Nat × Cpu := (s.stack.headD 0, { s with stack := s.stack.tail })

inductive Label where
  | searchFile
  | readCluster
  | searchCluster
  | nextEntry
  | nextRoot
  | notFound
  | finish
deriving DecidableEq

/-- `repe cmpsb` from byte `i` of the name on: the zero flag and `rsi`. -/
def repeCmpsb (m : Mem) (name : Nat → UInt8) : (rcx rsi i : Nat) → Bool × Nat
  | 0, rsi, _ => (true, rsi)
  | rcx + 1, rsi, i => if m rsi = name i then repeCmpsb m name rcx (rsi + 1) (i + 1) else (false, rsi + 1)

/-- The blocks of `searchFile`. -/
def step (b : Stage2) : Label → Cpu → Option (Jump Label × Cpu)
  | .searchFile, s => some (.label .readCluster, { s with rax := b.rootCluster })
  | .readCluster, s =>
    let s := s.push s.rax
    (read (b.lba s.rax) Stage2.buffer b.part.sectorsPerCluster.toNat s.disk).map fun x =>
      (.label .searchCluster, { s with disk := x, rax := b.lba s.rax })
  | .searchCluster, s =>
    some (.label .nextEntry,
      { s with rax := Stage2.buffer - 32, rbx := b.bytesPerCluster + Stage2.buffer })
  | .nextEntry, s =>
    let rax := add64 s.rax 32
    if rax = s.rbx then some (.label .notFound, { s with rax := rax })
    else
      let (zero, rsi) := repeCmpsb s.disk.1 b.fileName 11 rax 0
      if zero then
        -- the carry is that of the second `mul`, and what is popped does not matter
        let rax := stage2Cluster s.disk.1 rsi
        let carry := decide (2 ^ 64 ≤ s.disk.1.load (rsi + 9) 2 * 0x100 % 2 ^ 64 * 0x100)
        some (.label .finish, { s.pop.2 with rax := rax, rbx := 0x100, carry := carry })
      else some (.label .nextEntry, { s with rax := rax })
  | .nextRoot, s =>
    let (rax, s) := s.pop
    (b.getNextCluster rax s.disk).map fun r =>
      let s := { s with disk := r.2, rax := r.1.1, carry := r.1.2 }
      if s.carry then (.label .notFound, s) else (.label .readCluster, s)
  | .notFound, s => some (.label .finish, { s with carry := true })
  | .finish, s => some (.address s.pop.1, s.pop.2)

/-! ## What should be found -/

/-- The entry has the name. -/
def HasName (name : Nat → UInt8) (e : List UInt8) : Prop := ∀ j, j < 11 → e.getD j 0 = name j

instance (name : Nat → UInt8) : DecidablePred (HasName name) :=
  fun e => inferInstanceAs (Decidable (∀ j, j < 11 → e.getD j 0 = name j))

/-- **`searchFile` searches the directory** in the clusters `cs`: it returns to its caller with the stack
as it was, whatever memory held, and with the first cluster of the first entry that has the name, or
with the carry flag. -/
def SearchesDirectory (b : Stage2) (d : Ata) (cs : List Nat) : Prop :=
  ∀ s : Cpu, s.disk.2 = d → ∀ caller stack, s.stack = caller :: stack →
    ∃ t, ReturnsTo (step b) .searchFile s caller t ∧ t.stack = stack ∧
      match (directory b.part d cs).find? (HasName b.fileName) with
      | some e => t.carry = false ∧ t.rax = firstCluster (fun i => e.getD i 0) 0
      | none => t.carry = true

section
variable {b : Stage2} {d : Ata} {m : Mem} {c i n t rsi caller : Nat} {name : Nat → UInt8} {s u : Cpu}
  {stack cs : List Nat}

/-- **No block jumps to `nextRoot`.** -/
theorem step_ne_nextRoot {l l' : Label} (h : step b l s = some (.label l', u)) : l' ≠ .nextRoot := by
  cases l with
  | searchFile | searchCluster | notFound =>
    cases h
    decide
  | readCluster =>
    obtain ⟨x, -, h⟩ := Option.map_eq_some_iff.1 h
    cases h
    decide
  | nextEntry =>
    simp only [step] at h
    split at h
    · cases h
      decide
    · split at h
      · cases h
        decide
      · cases h
        decide
  | nextRoot =>
    obtain ⟨x, -, h⟩ := Option.map_eq_some_iff.1 h
    dsimp only at h
    split at h
    · cases h
      decide
    · cases h
      decide
  | finish => cases h

/-! ## Comparing -/

theorem repeCmpsb_same {k : Nat} (h : ∀ j, j < k → m (rsi + j) = name (i + j)) :
    repeCmpsb m name k rsi i = (true, rsi + k) := by
  induction k generalizing rsi i with
  | zero => rfl
  | succ k ih =>
    have h0 : m rsi = name i := h 0 (Nat.zero_lt_succ _)
    rw [repeCmpsb, if_pos h0, ih fun j hj => ?_, Nat.add_assoc, Nat.add_comm 1]
    rw [Nat.add_assoc, Nat.add_assoc, Nat.add_comm 1]
    exact h (j + 1) (by omega)

theorem repeCmpsb_ne {j k : Nat} (hj : j < k) (h : m (rsi + j) ≠ name (i + j)) :
    (repeCmpsb m name k rsi i).1 = false := by
  induction k generalizing rsi i j with
  | zero => cases hj
  | succ k ih =>
    unfold repeCmpsb
    split
    · next heq =>
      cases j with
      | zero => exact absurd heq h
      | succ j =>
        refine ih (Nat.lt_of_succ_lt_succ hj) ?_
        rwa [Nat.add_assoc, Nat.add_assoc, Nat.add_comm 1]
    · rfl

theorem hasName_entryBytes {entry : Nat} :
    HasName name (entryBytes m entry) ↔ ∀ j, j < 11 → m (entry + j) = name j := by
  refine forall_congr' fun j => forall_congr' fun hj => ?_
  rw [List.getD_eq_getElem?_getD, entryBytes_getElem? (by unfold sizeofDirEntry; omega)]
  rfl

theorem firstCluster_entryBytes {entry : Nat} :
    firstCluster (fun i => (entryBytes m entry).getD i 0) 0 = firstCluster m entry := by
  have hbyte : ∀ j, j < 32 → (entryBytes m entry).getD j 0 = m (entry + j) := fun j hj => by
    rw [List.getD_eq_getElem?_getD, entryBytes_getElem? hj]
    rfl
  have hload : ∀ o, o + 2 ≤ 32 →
      Mem.load (fun i => (entryBytes m entry).getD i 0) (0 + o) 2 = m.load (entry + o) 2 := by
    intro o ho
    refine Mem.load_shift fun k hk => ?_
    rw [Nat.zero_add, hbyte _ (by omega), Nat.add_assoc]
  unfold firstCluster clusterHigh clusterLow
  rw [hload 20 (by decide), hload 26 (by decide)]

/-! ## The entries of a cluster -/

/-- The address of entry `i`. -/
theorem nextEntry_address (hi : i < 2 ^ 32) :
    add64 (Stage2.buffer - 32 + 32 * i) 32 = dirEntryAt Stage2.buffer i := by
  unfold Stage2.buffer dirEntryAt sizeofDirEntry
  rw [add64_of_lt (by omega)]
  omega

/-- The entry with the name: the carry flag is clear, and the cluster leaves the stack. -/
theorem nextEntry_hit (hi : i < 2 ^ 32) (hrax : s.rax = Stage2.buffer - 32 + 32 * i)
    (hrbx : s.rbx ≠ dirEntryAt Stage2.buffer i)
    (hname : HasName b.fileName (entryBytes s.disk.1 (dirEntryAt Stage2.buffer i))) :
    step b .nextEntry s = some (.label .finish, { s with
      stack := s.stack.tail
      rax := firstCluster s.disk.1 (dirEntryAt Stage2.buffer i)
      rbx := 0x100
      carry := false }) := by
  have hcmp := @repeCmpsb_same s.disk.1 0 (dirEntryAt Stage2.buffer i) b.fileName 11 fun j hj => by
    rw [Nat.zero_add]
    exact hasName_entryBytes.1 hname j hj
  have hlt : s.disk.1.load (dirEntryAt Stage2.buffer i + 11 + 9) 2 < 256 ^ 2 := Mem.load_lt _ _ _
  have hcarry : ¬ 2 ^ 64 ≤ s.disk.1.load (dirEntryAt Stage2.buffer i + 11 + 9) 2 * 0x100 % 2 ^ 64 * 0x100 := by
    omega
  unfold step
  dsimp only
  rw [hrax, nextEntry_address hi, if_neg hrbx.symm, hcmp]
  dsimp only
  rw [if_pos rfl, stage2Cluster_eq, decide_eq_false hcarry]
  rfl

/-- Another entry. -/
theorem nextEntry_miss (hi : i < 2 ^ 32) (hrax : s.rax = Stage2.buffer - 32 + 32 * i)
    (hrbx : s.rbx ≠ dirEntryAt Stage2.buffer i)
    (hname : ¬ HasName b.fileName (entryBytes s.disk.1 (dirEntryAt Stage2.buffer i))) :
    step b .nextEntry s =
      some (.label .nextEntry, { s with rax := Stage2.buffer - 32 + 32 * (i + 1) }) := by
  obtain ⟨j, hj, hne⟩ : ∃ j, j < 11 ∧
      s.disk.1 (dirEntryAt Stage2.buffer i + j) ≠ b.fileName (0 + j) := by
    rw [hasName_entryBytes] at hname
    simpa using hname
  have haddr : dirEntryAt Stage2.buffer i = Stage2.buffer - 32 + 32 * (i + 1) := by
    unfold Stage2.buffer dirEntryAt sizeofDirEntry
    omega
  unfold step
  dsimp only
  rw [hrax, nextEntry_address hi, if_neg hrbx.symm]
  have hcmp := @repeCmpsb_ne _ 0 _ _ _ _ hj hne
  revert hcmp
  generalize repeCmpsb s.disk.1 b.fileName 11 (dirEntryAt Stage2.buffer i) 0 = r
  rintro hcmp
  rw [haddr]
  exact if_neg (by rw [hcmp]; decide)

/-- **The search finds the first entry** with the name, and returns. -/
theorem nextEntry_found (hn : i + n < 2 ^ 32) (hrax : s.rax = Stage2.buffer - 32 + 32 * i)
    (hrbx : s.rbx = dirEntryAt Stage2.buffer (i + n)) (hstack : s.stack = c :: caller :: stack) (hi : i ≤ t)
    (ht : t < i + n)
    (hfirst : ∀ t', i ≤ t' → t' < t →
      ¬ HasName b.fileName (entryBytes s.disk.1 (dirEntryAt Stage2.buffer t')))
    (hname : HasName b.fileName (entryBytes s.disk.1 (dirEntryAt Stage2.buffer t))) :
    ReturnsTo (step b) .nextEntry s caller { s with
      stack := stack
      rax := firstCluster s.disk.1 (dirEntryAt Stage2.buffer t)
      rbx := 0x100
      carry := false } := by
  induction n generalizing i s with
  | zero => omega
  | succ n ih =>
    have hne : s.rbx ≠ dirEntryAt Stage2.buffer i := by
      rw [hrbx]
      unfold dirEntryAt sizeofDirEntry
      omega
    rcases Nat.eq_or_lt_of_le hi with rfl | hlt
    · refine .jump (nextEntry_hit (by omega) hrax hne hname) (.ret ?_)
      rw [hstack]
      rfl
    · refine .jump (nextEntry_miss (by omega) hrax hne (hfirst i (Nat.le_refl _) hlt)) ?_
      exact ih (by omega) rfl (by rw [hrbx, Nat.add_assoc, Nat.add_comm 1]) hstack hlt (by omega)
        (fun t' h1 h2 => hfirst t' (by omega) h2) hname

/-- **Behind the last entry** `ret` takes the cluster. -/
theorem nextEntry_none (hn : i + n < 2 ^ 32) (hrax : s.rax = Stage2.buffer - 32 + 32 * i)
    (hrbx : s.rbx = dirEntryAt Stage2.buffer (i + n)) (hstack : s.stack = c :: stack)
    (hno : ∀ t, i ≤ t → t < i + n →
      ¬ HasName b.fileName (entryBytes s.disk.1 (dirEntryAt Stage2.buffer t))) :
    ∃ u, ReturnsTo (step b) .nextEntry s c u ∧ u.stack = stack ∧ u.carry = true := by
  induction n generalizing i s with
  | zero =>
    have hlast : s.rbx = dirEntryAt Stage2.buffer i := hrbx
    have hend : step b .nextEntry s = some (.label .notFound, { s with rax := s.rbx }) := by
      unfold step
      dsimp only
      rw [hrax, nextEntry_address (by omega), if_pos hlast.symm, hlast]
    refine ⟨{ s with stack := stack, rax := s.rbx, carry := true }, .jump hend (.jump rfl (.ret ?_)), rfl, rfl⟩
    show some (Jump.address (s.stack.headD 0), _) = _
    rw [hstack]
    simp [Cpu.pop]
  | succ n ih =>
    have hne : s.rbx ≠ dirEntryAt Stage2.buffer i := by
      rw [hrbx]
      unfold dirEntryAt sizeofDirEntry
      omega
    obtain ⟨u, hu, hus, huc⟩ := @ih (i + 1) { s with rax := Stage2.buffer - 32 + 32 * (i + 1) } (by omega) rfl
      (by rw [hrbx, Nat.add_assoc, Nat.add_comm 1]) hstack fun t h1 h2 => hno t (by omega) (by omega)
    exact ⟨u, .jump (nextEntry_miss (by omega) hrax hne (hno i (Nat.le_refl _) (by omega))) hu, hus, huc⟩

/-! ## The first cluster -/

theorem sentByte_lba : sentByte d (b.lba c) = sentByte d (b.part.lba c) := by
  have hlba : b.lba c = b.part.lba c % 2 ^ 32 := by
    have hdec : (c % 2 ^ 32 + (2 ^ 32 - 1)) % 2 ^ 32 = (c + (2 ^ 32 - 1)) % 2 ^ 32 := Nat.mod_add_mod _ _ _
    rw [Stage2.lba, Partition.lba, ← clusterLBA_eq rfl]
    unfold clusterLBA
    dsimp only
    rw [hdec]
  funext i
  rw [hlba]
  unfold sentByte
  rw [show b.part.lba c % 2 ^ 32 / 2 ^ 28 % 2 = b.part.lba c / 2 ^ 28 % 2 by omega,
    show b.part.lba c % 2 ^ 32 % 2 ^ 28 = b.part.lba c % 2 ^ 28 by omega]

/-- How many entries are compared. -/
def Stage2.entries (b : Stage2) : Nat := b.part.sectorsPerCluster.toNat % 128 * 16

/-- The first cluster of the directory is read, and pushed to the stack. -/
theorem searchFile_start (h512 : b.part.bytesPerSector = 512) (s : Cpu) : ∃ s0 : Cpu,
    (∀ a u, ReturnsTo (step b) .nextEntry s0 a u → ReturnsTo (step b) .searchFile s a u) ∧
    s0.disk.1 = overlay s.disk.1 Stage2.buffer (sentByte s.disk.2 (b.part.lba b.rootCluster)) ∧
    s0.stack = b.rootCluster :: s.stack ∧ s0.rax = Stage2.buffer - 32 + 32 * 0 ∧
    s0.rbx = dirEntryAt Stage2.buffer (0 + b.entries) := by
  obtain ⟨d', hread, -⟩ := read_eq (b.lba b.rootCluster) Stage2.buffer b.part.sectorsPerCluster.toNat s.disk.1 s.disk.2
  have hstep : step b .readCluster { s with rax := b.rootCluster } = some (.label .searchCluster, { s with
      disk := (overlay s.disk.1 Stage2.buffer (sentByte s.disk.2 (b.lba b.rootCluster)), d')
      stack := b.rootCluster :: s.stack
      rax := b.lba b.rootCluster }) := by
    show Option.map _ (read (b.lba b.rootCluster) Stage2.buffer _ (s.disk.1, s.disk.2)) = _
    rw [hread]
    rfl
  refine ⟨_, fun a u h => .jump rfl (.jump hstep (.jump rfl h)), ?_, rfl, rfl, ?_⟩
  · rw [sentByte_lba]
  · show b.bytesPerCluster + Stage2.buffer = _
    unfold dirEntryAt Stage2.bytesPerCluster Stage2.entries sizeofDirEntry
    rw [clusterSize_eq h512]
    omega

/-- The entries of the first cluster as they lie in the buffer. -/
theorem entryBytes_start {s s0 : Cpu} {t : Nat} (ht : t < 16) (hm : s0.disk.1 = overlay s.disk.1
    Stage2.buffer (sentByte s.disk.2 (b.part.lba b.rootCluster))) :
    entryBytes s0.disk.1 (dirEntryAt Stage2.buffer t) =
      diskEntry b.part s.disk.2 b.rootCluster t := by
  rw [hm, overlay_entry ht]

/-- A search that goes through the directory finds the file in the first sector: from a memory in which
no entry has the name it would return with the cluster still on the stack. -/
theorem SearchesDirectory.first_sector (h512 : b.part.bytesPerSector = 512)
    (h : SearchesDirectory b d (b.rootCluster :: cs)) : b.part.sectorsPerCluster.toNat % 128 ≠ 0 ∧
      ∃ e ∈ (directory b.part d (b.rootCluster :: cs)).take 16, HasName b.fileName e := by
  refine Classical.byContradiction fun hno => ?_
  let s : Cpu := ⟨(fun _ => b.fileName 0 + 1, d), [0], 0, 0, false⟩
  obtain ⟨s0, hrun, hm, hstack, hrax, hrbx⟩ := searchFile_start h512 s
  have hmiss : ∀ t, 0 ≤ t → t < 0 + b.entries →
      ¬ HasName b.fileName (entryBytes s0.disk.1 (dirEntryAt Stage2.buffer t)) := by
    intro t _ ht hname
    by_cases h16 : t < 16
    · rw [entryBytes_start h16 hm] at hname
      have hspc : b.part.sectorsPerCluster.toNat % 128 ≠ 0 := fun h0 => by
        unfold Stage2.entries at ht
        omega
      exact hno ⟨hspc, (mem_take_directory h512 (by omega)).2 ⟨t, h16, hname⟩⟩
    · rw [hm, overlay_entry_ne (Nat.le_of_not_lt h16)] at hname
      have hb : b.fileName 0 + 1 = b.fileName 0 := hasName_entryBytes.1 hname 0 (by decide)
      exact absurd hb (by simp)
  obtain ⟨u, hu, hus, -⟩ := nextEntry_none (by unfold Stage2.entries; omega) hrax hrbx hstack hmiss
  obtain ⟨u', hu', hus', -⟩ := h s rfl 0 [] rfl
  obtain ⟨-, rfl⟩ := (hrun _ _ hu).unique hu'
  exact List.cons_ne_nil _ _ (hus.symm.trans hus')

/-- **When the whole directory is searched**: the file is among the entries of its first sector, which is
all that is read before the first cluster is over. -/
theorem searches_directory_iff (h512 : b.part.bytesPerSector = 512)
    (hc : IsChain (fun _ => b.next d) 0 cs) (hroot : cs.headD 0 = b.rootCluster) :
    SearchesDirectory b d cs ↔ b.part.sectorsPerCluster.toNat % 128 ≠ 0 ∧
      ∃ e ∈ (directory b.part d cs).take 16, HasName b.fileName e := by
  obtain ⟨cs, rfl⟩ : ∃ cs', cs = b.rootCluster :: cs' := by
    cases cs with
    | nil => exact hc.elim
    | cons c cs => exact ⟨cs, by rw [← hroot]; rfl⟩
  refine ⟨SearchesDirectory.first_sector h512, ?_⟩
  rintro ⟨hspc, he⟩ s rfl caller stack hs
  obtain ⟨t, ht, hname, hfirst, hfind⟩ := directory_first h512 (by omega) he
  obtain ⟨s0, hrun, hm, hstack, hrax, hrbx⟩ := searchFile_start h512 s
  rw [hs] at hstack
  rw [hfind]
  rw [← entryBytes_start ht hm] at hname ⊢
  refine ⟨_, hrun _ _ (nextEntry_found (by unfold Stage2.entries; omega) hrax hrbx hstack (Nat.zero_le t)
    (by unfold Stage2.entries; omega) (fun t' _ ht' => ?_) hname), rfl, rfl, firstCluster_entryBytes.symm⟩
  rw [entryBytes_start (by omega) hm]
  exact hfirst t' ht'

end

/-! ## Two directories -/

/-- `KERNEL`. -/
def kernel : List UInt8 := [0x4B, 0x45, 0x52, 0x4E, 0x45, 0x4C]

/-- Word `i` of these bytes. -/
def wordAt (bytes : List UInt8) (i : Nat) : BitVec 16 :=
  BitVec.ofNat 16 ((bytes.getD (2 * i) 0).toNat + 256 * (bytes.getD (2 * i + 1) 0).toNat)

/-- A drive with the FAT in sector 32, where cluster 3 follows cluster 2 and is the last one, and these
bytes from sector 1000 on. -/
def bootDrive (bytes : List UInt8) : Ata :=
  { markedDrive 0 with
    data := fun slave lba i =>
      if slave then 0
      else if lba = 32 then
        wordAt [0xF8, 0xFF, 0xFF, 0x0F, 0xFF, 0xFF, 0xFF, 0x0F, 0x03, 0, 0, 0, 0xFF, 0xFF, 0xFF, 0x0F] i
      else if 1000 ≤ lba then wordAt bytes (256 * (lba - 1000) + i) else 0 }

/-- The boot loader on that drive. -/
def kernelLoader : Stage2 := ⟨⟨1000, 1, 512⟩, 32, 2, cstring (padded kernel)⟩

/-- The kernel in the first cluster is found. -/
theorem searches_directory_first :
    SearchesDirectory kernelLoader (bootDrive (namedEntry ls ++ namedEntry kernel)) [2, 3] := by
  have hc : IsChain (fun _ => kernelLoader.next (bootDrive (namedEntry ls ++ namedEntry kernel))) 0 [2, 3] :=
    ⟨by decide +kernel, show _ = none by decide +kernel⟩
  exact (searches_directory_iff rfl hc rfl).2 ⟨by decide, by decide⟩

/-- **The kernel in the second cluster is not found**, and the search ends in a jump to address 2. -/
theorem second_cluster_skipped :
    IsChain (fun _ => kernelLoader.next (bootDrive (List.replicate 512 0 ++ namedEntry kernel))) 0 [2, 3] ∧
    (directory kernelLoader.part (bootDrive (List.replicate 512 0 ++ namedEntry kernel)) [2, 3]).findIdx?
      (HasName kernelLoader.fileName) = some 16 ∧
    (∃ u, ReturnsTo (step kernelLoader) .searchFile
      ⟨(fun _ => 0, bootDrive (List.replicate 512 0 ++ namedEntry kernel)), [0x8000], 0, 0, false⟩ 2 u ∧
      u.stack = [0x8000] ∧ u.carry = true) ∧
    ¬ SearchesDirectory kernelLoader (bootDrive (List.replicate 512 0 ++ namedEntry kernel)) [2, 3] := by
  have hc : IsChain (fun _ => kernelLoader.next
      (bootDrive (List.replicate 512 0 ++ namedEntry kernel))) 0 [2, 3] :=
    ⟨by decide +kernel, show _ = none by decide +kernel⟩
  have hno : ∀ t, t < 16 → ¬ HasName kernelLoader.fileName
      (diskEntry kernelLoader.part (bootDrive (List.replicate 512 0 ++ namedEntry kernel)) 2 t) := by
    decide +kernel
  refine ⟨hc, by decide +kernel, ?_, fun h => ?_⟩
  · obtain ⟨s0, hrun, hm, hstack, hrax, hrbx⟩ := @searchFile_start kernelLoader rfl
      ⟨(fun _ => 0, bootDrive (List.replicate 512 0 ++ namedEntry kernel)), [0x8000], 0, 0, false⟩
    obtain ⟨u, hu, hus, hcarry⟩ := nextEntry_none (by decide) hrax hrbx hstack fun t _ ht => by
      have h16 : t < 16 := by simpa [Stage2.entries, kernelLoader] using ht
      rw [hm, overlay_entry h16]
      exact hno t h16
    exact ⟨u, hrun _ _ hu, hus, hcarry⟩
  · obtain ⟨-, he⟩ := SearchesDirectory.first_sector rfl h
    obtain ⟨t, ht, hname⟩ := (mem_take_directory rfl (by decide)).1 he
    exact hno t ht hname

end Fat32
