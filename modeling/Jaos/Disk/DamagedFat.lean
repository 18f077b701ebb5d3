import Jaos.Disk.FindFile

/-!
# Reading through a damaged FAT (`kernel/fat32.c`, `kernel/elf.c`)

`read_file` and `find_file` go from cluster to cluster until `find_next_cluster` reports the end, and
compare neither the number of clusters nor the address with anything. So `read_file` ends in the buffer
exactly if the chain ends and the first sector of its last cluster does (`readsInside_iff`), and
`find_file` ends exactly if the chain does or reaches an entry that begins with the name
(`findEnds_iff`), whatever the FAT holds.
-/

namespace Fat32

open Lib

/-- `find_next_cluster` up to the end of the chain, when it is called for the time `k`: the FAT is the
same each time, the words behind the buffer are what memory holds then. -/
def lookup (v : Volume) (beyond : Nat → Nat → BitVec 32) (k : Nat) : Nat → Option Nat :=
  next { v with beyond := beyond k }

/-- The size of the buffer that `load_executable` allocates, in 32 bits. -/
def bufferSize (p : Partition) (size : Nat) : Nat := (size + p.clusterSize) % 2 ^ 32

/-- **`read_file` ends and stays in the buffer** that `load_executable` allocates for the entry at
`file`, whatever memory holds. -/
def ReadsInside (p : Partition) (d : Ata) (next : Nat → Nat → Option Nat) (entry : Mem) (file : Nat) : Prop :=
  ∀ address m, ∃ fuel m' d',
    readFile p next fuel 0 (loadExecutableCluster entry file) address (m, d) = some (m', d') ∧
      ∀ a, a < address ∨ address + bufferSize p (fileSize entry file) ≤ a → m' a = m a

/-- **`find_file` ends**, whatever memory holds. -/
def FindEnds (p : Partition) (d : Ata) (next : Nat → Nat → Option Nat) (rootCluster : Nat)
    (name : List UInt8) : Prop :=
  ∀ list m, ∃ fuel r, findFile p next rootCluster list (cstring name) fuel (m, d) = some r

/-- The clusters that are reached, where lookup `k` is the next one. -/
def visit (next : Nat → Nat → Option Nat) : (k c j : Nat) → Option Nat
  | _, c, 0 => some c
  | k, c, j + 1 => (next k c).bind fun c => visit next (k + 1) c j

section
variable {p : Partition} {d : Ata} {next : Nat → Nat → Option Nat} {k c address fuel size : Nat}
  {m : Mem} {cs : List Nat} {x r : Mem × Ata}

/-! ## `read_file` -/

/-- A run of `read_file` has come to the end of a chain. -/
theorem readFile_chain (h : readFile p next fuel k c address x = some r) :
    ∃ cs, IsChain next k (c :: cs) := by
  induction fuel generalizing k c address x with
  | zero => cases h
  | succ fuel ih =>
    obtain ⟨y, -, h⟩ := Option.bind_eq_some_iff.1 h
    cases hnext : next k c with
    | none => exact ⟨[], hnext⟩
    | some c' =>
      rw [hnext] at h
      obtain ⟨cs, hcs⟩ := ih h
      exact ⟨c' :: cs, hnext, hcs⟩

/-- The first sector of the last cluster is there, whatever memory held. -/
theorem readChain_last {i : Nat} (hi : i < 512) : ∃ b, ∀ m,
    readChain p d (c :: cs) address m (address + cs.length * p.clusterSize + i) = b := by
  induction cs generalizing c address with
  | nil =>
    refine ⟨sentByte d (p.lba c) i, fun m => ?_⟩
    rw [List.length_nil, Nat.zero_mul, Nat.add_zero, readChain, readChain, overlay, if_pos (by omega),
      Nat.add_sub_cancel_left]
  | cons c' cs ih =>
    obtain ⟨b, hb⟩ := @ih c' (address + p.clusterSize)
    refine ⟨b, fun m => ?_⟩
    rw [List.length_cons, Nat.succ_mul, Nat.add_comm (cs.length * _), ← Nat.add_assoc address]
    exact hb _

/-- **When `read_file` stays in the buffer**: the chain ends, and its last cluster begins at least a
sector in front of the end. -/
theorem readsInside_iff {entry : Mem} {file : Nat} : ReadsInside p d next entry file ↔
    ∃ cs, IsChain next 0 (loadExecutableCluster entry file :: cs) ∧
      cs.length * p.clusterSize + 512 ≤ bufferSize p (fileSize entry file) := by
  unfold ReadsInside
  generalize loadExecutableCluster entry file = c
  generalize bufferSize p (fileSize entry file) = size
  constructor
  · intro h
    obtain ⟨fuel, m', d', hrun, -⟩ := h 0 fun _ => 0
    obtain ⟨cs, hc⟩ := readFile_chain hrun
    refine ⟨cs, hc, Classical.byContradiction fun hlt => ?_⟩
    -- the last byte that is stored does not depend on what was there
    obtain ⟨b, hb⟩ := @readChain_last p d c 0 cs 511 (by decide)
    obtain ⟨fuel, m', d', hrun, hout⟩ := h 0 fun _ => b + 1
    obtain ⟨d2, hrun'⟩ := readFile_eq (p := p) 0 (fun _ => b + 1) d hc
    have hsame := readFile_mono hrun (Nat.le_max_left fuel (cs.length + 1))
    rw [readFile_mono hrun' (Nat.le_max_right fuel _)] at hsame
    cases hsame
    have hbyte := hout (0 + cs.length * p.clusterSize + 511) (.inr (by omega))
    rw [hb] at hbyte
    exact absurd hbyte (by simp)
  · rintro ⟨cs, hc, hle⟩ address m
    obtain ⟨d', hrun⟩ := readFile_eq (p := p) address m d hc
    refine ⟨_, _, d', hrun, fun a ha => readChain_out fun k hk => ?_⟩
    have hmul : k * p.clusterSize ≤ cs.length * p.clusterSize :=
      Nat.mul_le_mul_right _ (Nat.le_of_lt_succ hk)
    omega

/-! ## `find_file` -/

/-- The chain ends where a cluster has no successor. -/
theorem visit_none_iff : (∃ n, visit next k c n = none) ↔ ∃ cs, IsChain next k (c :: cs) := by
  constructor
  · rintro ⟨n, hn⟩
    induction n generalizing k c with
    | zero => cases hn
    | succ n ih =>
      cases hnext : next k c with
      | none => exact ⟨[], hnext⟩
      | some c' =>
        rw [visit, hnext, Option.bind_some] at hn
        obtain ⟨cs, hcs⟩ := ih hn
        exact ⟨c' :: cs, hnext, hcs⟩
  · rintro ⟨cs, hcs⟩
    induction cs generalizing k c with
    | nil => exact ⟨1, by rw [visit, show next k c = none from hcs]; rfl⟩
    | cons c' cs ih =>
      obtain ⟨n, hn⟩ := ih hcs.2
      exact ⟨n + 1, by rw [visit, hcs.1, Option.bind_some, hn]⟩

section
variable {list : Nat} {name : List UInt8}

theorem findInCluster_no {n i t : Nat} {m' : Mem} (h0 : ∀ b ∈ name, b ≠ 0)
    (h : findInCluster list (cstring name) (name.length + 1) n i m = (none, m')) (hi : i ≤ t)
    (ht : t < i + n) : ¬ Starts name (entryBytes m (dirEntryAt list t)) := by
  intro hs
  -- the first entry that begins with the name would have been found
  obtain ⟨u, ⟨hu, hsu⟩, hfirst⟩ : ∃ u, (i ≤ u ∧ Starts name (entryBytes m (dirEntryAt list u))) ∧
      ∀ u', u' < u → ¬ (i ≤ u' ∧ Starts name (entryBytes m (dirEntryAt list u'))) := by
    refine Classical.byContradiction fun hno => ?_
    have key : ∀ u, ¬ (i ≤ u ∧ Starts name (entryBytes m (dirEntryAt list u))) := by
      intro u
      induction u using Nat.strongRecOn with
      | ind u ih => exact fun hu => hno ⟨u, hu, ih⟩
    exact key t ⟨hi, hs⟩
  have hut : u ≤ t := Nat.le_of_not_lt fun hlt => hfirst t hlt ⟨hi, hs⟩
  rw [findInCluster_some h0 hu (by omega) (fun t' h1 h2 hs' => hfirst t' h2 ⟨h1, hs'⟩) hsu] at h
  cases h

/-- **A round of `find_file`** ends it, or goes on to the next cluster; the first sector decides if it
holds an entry that begins with the name. -/
theorem findLoop_round (next : Nat → Nat → Option Nat) (list k c : Nat) (m : Mem) (d : Ata)
    (h0 : ∀ b ∈ name, b ≠ 0) :
    (∃ r, ∀ fuel, findLoop p next list (cstring name) (name.length + 1) (fuel + 1) k c (m, d) = some r) ∨
      (∀ t, t < 16 → t < p.entriesPerCluster → ¬ Starts name (diskEntry p d c t)) ∧
        ∃ c' m' d', next k c = some c' ∧ d'.data = d.data ∧ ∀ fuel,
          findLoop p next list (cstring name) (name.length + 1) (fuel + 1) k c (m, d) =
            findLoop p next list (cstring name) (name.length + 1) fuel (k + 1) c' (m', d') := by
  obtain ⟨d', hread, hdata⟩ := readCluster_eq p c list m d
  have hrun : ∀ fuel, findLoop p next list (cstring name) (name.length + 1) (fuel + 1) k c (m, d) = _ :=
    fun fuel => by rw [findLoop, hread, Option.bind_some]
  dsimp only at hrun
  cases hfind : findInCluster list (cstring name) (name.length + 1) p.entriesPerCluster 0
      (overlay m list (sentByte d (p.lba c))) with
  | mk found m' =>
    rw [hfind] at hrun
    cases found with
    | some i => exact .inl ⟨_, hrun⟩
    | none =>
      cases hnext : next k c with
      | none =>
        rw [hnext] at hrun
        exact .inl ⟨_, hrun⟩
      | some c' =>
        rw [hnext] at hrun
        refine .inr ⟨fun t h16 ht => ?_, c', m', d', rfl, hdata, hrun⟩
        rw [← overlay_entry (m := m) h16]
        exact findInCluster_no h0 hfind (Nat.zero_le _) (by omega)

/-- `find_file` ends at the latest where the chain ends or an entry begins with the name. -/
theorem findLoop_ends (list : Nat) (m : Mem) {n : Nat} (h0 : ∀ b ∈ name, b ≠ 0) (h : visit next k c n = none ∨ ∃ c' t,
      visit next k c n = some c' ∧ t < 16 ∧ t < p.entriesPerCluster ∧ Starts name (diskEntry p d c' t)) :
    ∃ fuel r, findLoop p next list (cstring name) (name.length + 1) fuel k c (m, d) = some r := by
  induction n generalizing k c m d with
  | zero =>
    obtain ⟨c', t, hc, h16, ht, hs⟩ := h.resolve_left (by simp [visit])
    cases hc
    rcases findLoop_round next list k c m d h0 with ⟨r, hr⟩ | ⟨hno, -⟩
    · exact ⟨1, r, hr 0⟩
    · exact absurd hs (hno t h16 ht)
  | succ n ih =>
    rcases findLoop_round next list k c m d h0 with ⟨r, hr⟩ | ⟨-, c', m', d', hnext, hdata, hgo⟩
    · exact ⟨1, r, hr 0⟩
    · rw [visit, hnext, Option.bind_some] at h
      obtain ⟨fuel, r, hr⟩ := ih (m := m') (d := d') (h.imp_right fun ⟨c2, t, hc, h16, ht, hs⟩ =>
        ⟨c2, t, hc, h16, ht, by rwa [diskEntry_congr hdata]⟩)
      exact ⟨fuel + 1, r, (hgo fuel).trans hr⟩

/-- Else it goes on for ever. -/
theorem findLoop_forever (h0 : ∀ b ∈ name, b ≠ 0) (hq : Quiet p list name m)
    (h : ∀ n, ∃ c', visit next k c n = some c' ∧
      ∀ t, t < 16 → t < p.entriesPerCluster → ¬ Starts name (diskEntry p d c' t)) :
    findLoop p next list (cstring name) (name.length + 1) fuel k c (m, d) = none := by
  induction fuel generalizing k c m d with
  | zero => rfl
  | succ fuel ih =>
    obtain ⟨c0, hc0, hno⟩ := h 0
    cases hc0
    obtain ⟨m', d', hdata, hq', hpass⟩ := findLoop_pass next h0 hq hno
    obtain ⟨c1, hc1, -⟩ := h 1
    obtain ⟨c', hnext, -⟩ := Option.bind_eq_some_iff.1 hc1
    rw [hpass, hnext]
    refine ih hq' fun n => ?_
    obtain ⟨c2, hc2, hno2⟩ := h (n + 1)
    rw [visit, hnext, Option.bind_some] at hc2
    exact ⟨c2, hc2, fun t h16 ht => by rw [diskEntry_congr hdata]; exact hno2 t h16 ht⟩

/-- Cleared memory holds no entry with a name. -/
theorem quiet_zero (h0 : ∀ b ∈ name, b ≠ 0) (hne : name ≠ []) : Quiet p list name fun _ => 0 := by
  intro t _ _ hs
  obtain ⟨b, name, rfl⟩ := List.exists_cons_of_ne_nil hne
  have hlen := hs.1
  have hb := (prefix_entryBytes (show (b :: name).length ≤ 32 by omega)).1 hs.2 0 (Nat.zero_lt_succ _)
  exact cstring_ne_zero h0 (Nat.zero_lt_succ _) hb.symm

/-- **When `find_file` ends**: the chain ends, or reaches an entry that begins with the name. -/
theorem findEnds_iff (h0 : ∀ b ∈ name, b ≠ 0) : FindEnds p d next c name ↔
    (∃ cs, IsChain next 0 (c :: cs)) ∨ ∃ n c' t, visit next 0 c n = some c' ∧ t < 16 ∧
      t < p.entriesPerCluster ∧ Starts name (diskEntry p d c' t) := by
  rw [← visit_none_iff]
  constructor
  · intro h
    refine Classical.byContradiction fun hno => ?_
    rw [not_or] at hno
    have hall : ∀ n, ∃ c', visit next 0 c n = some c' ∧
        ∀ t, t < 16 → t < p.entriesPerCluster → ¬ Starts name (diskEntry p d c' t) := by
      intro n
      cases hn : visit next 0 c n with
      | none => exact absurd ⟨n, hn⟩ hno.1
      | some c' => exact ⟨c', rfl, fun t h16 ht hs => hno.2 ⟨n, c', t, hn, h16, ht, hs⟩⟩
    have hq : Quiet p 0 name fun _ => 0 := by
      by_cases hne : name = []
      · -- every entry begins with the empty name
        subst hne
        obtain ⟨c', -, hc'⟩ := hall 0
        intro t h16 ht
        exact absurd ⟨Nat.zero_le _, List.nil_prefix⟩ (hc' 0 (by decide) (by omega))
      · exact quiet_zero h0 hne
    obtain ⟨fuel, r, hr⟩ := h 0 fun _ => 0
    have hrun := findFile_cases h0 hr
    rw [findLoop_forever h0 hq hall] at hrun
    cases hrun
  · intro h list m
    have hend : ∃ n, visit next 0 c n = none ∨ ∃ c' t, visit next 0 c n = some c' ∧ t < 16 ∧
        t < p.entriesPerCluster ∧ Starts name (diskEntry p d c' t) := by
      rcases h with ⟨n, hn⟩ | ⟨n, hn⟩
      · exact ⟨n, .inl hn⟩
      · exact ⟨n, .inr hn⟩
    obtain ⟨n, hn⟩ := hend
    obtain ⟨fuel, r, hr⟩ := findLoop_ends list m h0 hn
    obtain ⟨fuel', hr'⟩ := findFile_loop h0 hr
    exact ⟨fuel', r, hr'⟩

end

/-- **Reading through a damaged FAT** ends inside the buffer exactly if the chain of the file ends soon
enough, and the root directory ends or holds an entry that begins with the name. -/
theorem damaged_fat_iff {v : Volume} {beyond beyond' : Nat → Nat → BitVec 32} {entry : Mem}
    {file rootCluster : Nat} {name : List UInt8} (h0 : ∀ b ∈ name, b ≠ 0) :
    ReadsInside p d (lookup v beyond) entry file ∧ FindEnds p d (lookup v beyond') rootCluster name ↔
      (∃ cs, IsChain (lookup v beyond) 0 (loadExecutableCluster entry file :: cs) ∧
        cs.length * p.clusterSize + 512 ≤ bufferSize p (fileSize entry file)) ∧
      ((∃ cs, IsChain (lookup v beyond') 0 (rootCluster :: cs)) ∨
        ∃ n c t, visit (lookup v beyond') 0 rootCluster n = some c ∧ t < 16 ∧ t < p.entriesPerCluster ∧
          Starts name (diskEntry p d c t)) :=
  and_congr readsInside_iff (findEnds_iff h0)

end

/-! ## Two FATs -/

/-- A volume whose FAT holds this value everywhere. -/
def filledVolume (value : BitVec 32) : Volume := { smallVolume with disk := fun _ _ => value }

/-- A directory entry with cluster 5 and size 0. -/
def fileAtFive : Mem := fun a => if a = 26 then 5 else 0

/-- A chain of one cluster stays in the buffer. -/
theorem damaged_fat_ended :
    ReadsInside ⟨1000, 1, 512⟩ (markedDrive 0) (lookup (filledVolume 0x0fffffff) fun _ _ => 0) fileAtFive 0 ∧
      FindEnds ⟨1000, 1, 512⟩ (markedDrive 0) (lookup (filledVolume 0x0fffffff) fun _ _ => 0) 5 ls := by
  have hend : lookup (filledVolume 0x0fffffff) (fun _ _ => 0) 0 5 = none := by decide
  refine (damaged_fat_iff ls_noNul).2 ⟨⟨[], ?_, by decide⟩, .inl ⟨[], hend⟩⟩
  rw [show loadExecutableCluster fileAtFive 0 = 5 by decide]
  exact hend

/-- **The FAT entry of cluster 5 is 5**: neither loop ends. -/
theorem cycle_goes_on :
    ¬ ReadsInside ⟨1000, 1, 512⟩ (markedDrive 0) (lookup (filledVolume 5) fun _ _ => 0) fileAtFive 0 ∧
      ¬ FindEnds ⟨1000, 1, 512⟩ (markedDrive 0) (lookup (filledVolume 5) fun _ _ => 0) 5 ls := by
  have hnext : ∀ k, lookup (filledVolume 5) (fun _ _ => 0) k 5 = some 5 := fun _ =>
    show next (filledVolume 5) 5 = some 5 by decide
  have hchain : ∀ cs k, ¬ IsChain (lookup (filledVolume 5) fun _ _ => 0) k (5 :: cs) := by
    intro cs
    induction cs with
    | nil => exact fun k h => absurd (h.symm.trans (hnext k)) (by simp)
    | cons c cs ih =>
      rintro k ⟨h, hcs⟩
      rw [hnext k] at h
      cases h
      exact ih _ hcs
  have hvisit : ∀ n k, visit (lookup (filledVolume 5) fun _ _ => 0) k 5 n = some 5 := by
    intro n
    induction n with
    | zero => exact fun k => rfl
    | succ n ih => exact fun k => by rw [visit, hnext, Option.bind_some, ih]
  constructor
  · intro h
    obtain ⟨cs, hcs, -⟩ := readsInside_iff.1 h
    rw [show loadExecutableCluster fileAtFive 0 = 5 by decide] at hcs
    exact hchain cs 0 hcs
  · intro h
    rcases (findEnds_iff ls_noNul).1 h with ⟨cs, hcs⟩ | ⟨n, c, t, hn, h16, -, hs⟩
    · exact hchain cs 0 hcs
    · rw [hvisit] at hn
      cases hn
      have hno : ∀ t, t < 16 → ¬ Starts ls (diskEntry ⟨1000, 1, 512⟩ (markedDrive 0) 5 t) := by decide
      exact hno t h16 hs

end Fat32
