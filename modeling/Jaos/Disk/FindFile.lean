import Jaos.Corelib.Strings
import Jaos.Disk.Directory
import Jaos.Disk.ReadCluster

/-!
# Looking up a file (`kernel/fat32.c`, `lib/string.c`)

`find_file` reads the clusters of the root directory one after the other to one buffer and compares the
entries with the name. It compares as many bytes as the name has, after it has overwritten byte 10 of the
entry, and looks at nothing else: the first entry that begins with the name is returned
(`findLoop_eq`), with a zero in byte 10. A read fills the first sector of the buffer only, and what lies
behind it is compared as well.
-/

namespace Fat32

open Lib

/-! ## Strings -/

/-- A string of these bytes, followed by zeros. -/
def cstring (name : List UInt8) (i : Nat) : UInt8 := name.getD i 0

/-- `strlen` from character `len` on. The NUL is counted. -/
def strlen (str : Nat → UInt8) : (fuel len : Nat) → Option Nat
  | 0, _ => none
  | fuel + 1, len => if str len ≠ 0 then strlen str fuel (len + 1) else some (len + 1)

/-- `strncmp` from character `i` on, with `n` characters left; true for 1. -/
def strncmp (str str2 : Nat → UInt8) : (n i : Nat) → Bool
  | 0, _ => true
  | n + 1, i =>
    if str i = 0 ∧ str2 i = 0 then true
    else if str i = 0 ∨ str2 i = 0 then false
    else if str i ≠ str2 i then false
    else strncmp str str2 n (i + 1)

/-! ## `find_file` -/

/-- `&list[i]`. -/
def dirEntryAt (list i : Nat) : Nat := list + sizeofDirEntry * i

/-- The bytes of an entry. -/
def entryBytes (m : Mem) (entry : Nat) : List UInt8 :=
  (List.range sizeofDirEntry).map fun j => m (entry + j)

/-- `entries_per_cluster`. -/
def Partition.entriesPerCluster (p : Partition) : Nat := p.clusterSize / sizeofDirEntry

/-- The loop of `find_file` on the entries of a cluster from number `i` on; `len` is `strlen(name)`. -/
def findInCluster (list : Nat) (name : Nat → UInt8) (len : Nat) : (n i : Nat) → Mem → Option Nat × Mem
  | 0, _, m => (none, m)
  | n + 1, i, m =>
    let entry := dirEntryAt list i
    let m := m.set (entry + 10) 0
    if strncmp (fun j => m (entry + j)) name (len - 1) 0 then (some i, m)
    else findInCluster list name len n (i + 1) m

/-- The outer loop; `next k` is `find_next_cluster` up to the end of the chain when it is called for the
time `k`. The result is the copy of the entry, with its number in the directory. -/
def findLoop (p : Partition) (next : Nat → Nat → Option Nat) (list : Nat) (name : Nat → UInt8) (len : Nat) :
    (fuel k cluster : Nat) → Mem × Ata → Option (Option (Nat × List UInt8) × Mem × Ata)
  | 0, _, _, _ => none
  | fuel + 1, k, cluster, x =>
    (readCluster p cluster list x).bind fun x =>
      let r := findInCluster list name len p.entriesPerCluster 0 x.1
      match r.1 with
      | some i =>
        some (some (k * p.entriesPerCluster + i, entryBytes r.2 (dirEntryAt list i)), r.2, x.2)
      | none =>
        match next k cluster with
        | none => some (none, r.2, x.2)
        | some c => findLoop p next list name len fuel (k + 1) c (r.2, x.2)

/-- `find_file`, where `kmalloc` has returned `list`. -/
def findFile (p : Partition) (next : Nat → Nat → Option Nat) (rootCluster list : Nat)
    (name : Nat → UInt8) (fuel : Nat) (x : Mem × Ata) : Option (Option (Nat × List UInt8) × Mem × Ata) :=
  (strlen name fuel 0).bind fun len => findLoop p next list name len fuel 0 rootCluster x

/-! ## The directory -/

/-- Entry `i` of the cluster, as the drive has it under the sector numbers that it gets. -/
def diskEntry (p : Partition) (d : Ata) (cluster i : Nat) : List UInt8 :=
  (List.range sizeofDirEntry).map fun j =>
    sentByte d (p.lba cluster + (sizeofDirEntry * i + j) / 512) ((sizeofDirEntry * i + j) % 512)

/-- The entries of a cluster. -/
def clusterEntries (p : Partition) (d : Ata) (cluster : Nat) : List (List UInt8) :=
  (List.range p.entriesPerCluster).map (diskEntry p d cluster)

/-- The entries of the clusters of a chain. -/
def directory (p : Partition) (d : Ata) (cs : List Nat) : List (List UInt8) :=
  cs.flatMap (clusterEntries p d)

/-- The name in a directory entry. -/
def padded (name : List UInt8) : List UInt8 := name ++ List.replicate (11 - name.length) 0x20

/-- The entry is live, neither a volume label nor part of a long name, and has the name. -/
def Named (name e : List UInt8) : Prop :=
  e.getD 0 0 ≠ 0xE5 ∧ e.getD 11 0 &&& 0x08 = 0 ∧ e.take 11 = padded name

instance (name e : List UInt8) : Decidable (Named name e) := inferInstanceAs (Decidable (_ ∧ _ ∧ _))

/-- The number of the entry that is looked for; the first one with a zero ends the directory. -/
def wanted (name : List UInt8) (entries : List (List UInt8)) : Option Nat :=
  (entries.takeWhile fun e => e.getD 0 0 ≠ 0).findIdx? fun e => Named name e

/-- **`find_file` returns a copy** of the entry that is looked for, whatever the buffer held. -/
def FindsCopy (p : Partition) (next : Nat → Nat → Option Nat) (list : Nat) (d : Ata) (cs : List Nat)
    (name : List UInt8) : Prop :=
  ∀ m, ∃ fuel r m' d', findFile p next (cs.headD 0) list (cstring name) fuel (m, d) = some (r, m', d') ∧
    r.map Prod.snd = (wanted name (directory p d cs)).map fun t => (directory p d cs).getD t []

/-- It finds this entry, and copies all its bytes but the one that it overwrites. -/
def FindsEntry (p : Partition) (next : Nat → Nat → Option Nat) (list : Nat) (d : Ata) (cs : List Nat)
    (name : List UInt8) : Prop :=
  ∀ m, ∃ fuel r m' d', findFile p next (cs.headD 0) list (cstring name) fuel (m, d) = some (r, m', d') ∧
    r = (wanted name (directory p d cs)).map fun t => (t, ((directory p d cs).getD t []).set 10 0)

section
variable {name : List UInt8} {str : Nat → UInt8} {m : Mem} {list i n t entry : Nat}

/-! ## Comparing -/

/-- Where the whole string can be read, this is the library's `strlen`. -/
theorem strlen_corelib {fuel len : Nat} :
    Corelib.strlenFrom (fun a => some (str a)) 0 fuel len = strlen str fuel len := by
  induction fuel generalizing len with
  | zero => rfl
  | succ fuel ih => rw [Corelib.strlenFrom, Option.bind_some, Nat.zero_add, ih, strlen]

/-- Where the bytes can be read, this is the library's `strncmp`. -/
theorem strncmp_corelib {cells : Cells} {str2 : Nat → UInt8} {a b k : Nat}
    (ha : ∀ j, i ≤ j → j < i + n → cells (a + j) = some (str j))
    (hb : ∀ j, i ≤ j → j < i + n → cells (b + j) = some (str2 j)) (hk : n < k) :
    Corelib.strncmpFrom cells a b (i + n : Nat) k i = some (if strncmp str str2 n i then 1 else 0) := by
  induction n generalizing i k with
  | zero =>
    obtain ⟨k, rfl⟩ := Nat.exists_eq_succ_of_ne_zero (Nat.ne_of_gt hk)
    rw [Corelib.strncmpFrom, if_neg (by omega)]
    rfl
  | succ n ih =>
    obtain ⟨k, rfl⟩ := Nat.exists_eq_succ_of_ne_zero (Nat.ne_of_gt (Nat.zero_lt_of_lt hk))
    have hrest := @ih (i + 1) k (fun j h1 h2 => ha j (by omega) (by omega))
      (fun j h1 h2 => hb j (by omega) (by omega)) (by omega)
    rw [Nat.add_right_comm] at hrest
    rw [Corelib.strncmpFrom, if_pos (by omega), ha i (Nat.le_refl _) (by omega),
      hb i (Nat.le_refl _) (by omega), Option.bind_some, Option.bind_some, strncmp, ← Nat.add_assoc, hrest]
    split
    · rfl
    · split
      · rfl
      · split <;> rfl

theorem cstring_ne_zero (h0 : ∀ b ∈ name, b ≠ 0) (hi : i < name.length) : cstring name i ≠ 0 := by
  rw [cstring, List.getD_eq_getElem?_getD, List.getElem?_eq_getElem hi]
  exact h0 _ (List.getElem_mem hi)

theorem strlen_cstring (h0 : ∀ b ∈ name, b ≠ 0) {fuel len : Nat} (hlen : len ≤ name.length)
    (hfuel : name.length < fuel + len) : strlen (cstring name) fuel len = some (name.length + 1) := by
  induction fuel generalizing len with
  | zero => omega
  | succ fuel ih =>
    unfold strlen
    by_cases hlt : len < name.length
    · rw [if_pos (cstring_ne_zero h0 hlt)]
      exact ih hlt (by omega)
    · obtain rfl : len = name.length := by omega
      rw [if_neg]
      simp [cstring]

theorem strncmp_iff (h0 : ∀ b ∈ name, b ≠ 0) (hn : i + n = name.length) :
    strncmp str (cstring name) n i = true ↔ ∀ j, i ≤ j → j < name.length → str j = cstring name j := by
  induction n generalizing i with
  | zero => exact ⟨fun _ j h1 h2 => by omega, fun _ => rfl⟩
  | succ n ih =>
    have hne := cstring_ne_zero h0 (show i < name.length by omega)
    unfold strncmp
    rw [if_neg fun h => hne h.2]
    by_cases heq : str i = cstring name i
    · rw [if_neg fun h => h.elim (fun h => hne (heq ▸ h)) hne, if_neg fun h => h heq,
        ih (by omega)]
      refine ⟨fun h j h1 h2 => ?_, fun h j h1 h2 => h j (by omega) h2⟩
      rcases Nat.eq_or_lt_of_le h1 with rfl | hlt
      · exact heq
      · exact h j hlt h2
    · refine iff_of_false ?_ fun h => heq (h i (Nat.le_refl _) (by omega))
      split <;> decide

/-- The entry begins with the name, which leaves byte 10 out. -/
def Starts (name e : List UInt8) : Prop := name.length ≤ 10 ∧ name <+: e

instance (name e : List UInt8) : Decidable (Starts name e) := inferInstanceAs (Decidable (_ ∧ _))

theorem entryBytes_length : (entryBytes m entry).length = sizeofDirEntry := by simp [entryBytes]

theorem entryBytes_getElem? (hi : i < sizeofDirEntry) :
    (entryBytes m entry)[i]? = some (m (entry + i)) := by
  simp [entryBytes, hi]

theorem prefix_entryBytes (hlen : name.length ≤ sizeofDirEntry) :
    name <+: entryBytes m entry ↔ ∀ j, j < name.length → m (entry + j) = cstring name j := by
  rw [List.prefix_iff_getElem?]
  constructor
  · intro h j hj
    have hb := h j hj
    rw [entryBytes_getElem? (by omega)] at hb
    rw [cstring, List.getD_eq_getElem?_getD, List.getElem?_eq_getElem hj]
    exact Option.some.inj hb
  · intro h j hj
    rw [entryBytes_getElem? (by omega), h j hj, cstring, List.getD_eq_getElem?_getD,
      List.getElem?_eq_getElem hj]
    rfl

/-- **What is compared**: the entry begins with the name, and the name does not reach byte 10. -/
theorem compare_iff (h0 : ∀ b ∈ name, b ≠ 0) :
    strncmp (fun j => m.set (entry + 10) 0 (entry + j)) (cstring name) (name.length + 1 - 1) 0 = true ↔
      Starts name (entryBytes m entry) := by
  rw [Nat.add_sub_cancel, strncmp_iff h0 (Nat.zero_add _)]
  by_cases hlen : name.length ≤ 10
  · rw [Starts, prefix_entryBytes (show name.length ≤ 32 by omega)]
    refine ⟨fun h => ⟨hlen, fun j hj => ?_⟩, fun h j _ hj => ?_⟩
    · have hb := h j (Nat.zero_le _) hj
      rwa [Mem.set, if_neg (by omega)] at hb
    · rw [Mem.set, if_neg (by omega)]
      exact h.2 j hj
  · refine iff_of_false (fun h => ?_) fun h => hlen h.1
    have hb := h 10 (Nat.zero_le _) (by omega)
    rw [Mem.set, if_pos rfl] at hb
    exact cstring_ne_zero h0 (by omega) hb.symm

/-! ## One cluster -/

/-- A zero in byte 10 of the entries `[i, i + n)`. -/
def cut (list i n : Nat) (m : Mem) : Mem := fun a =>
  if list ≤ a ∧ (a - list) % 32 = 10 ∧ i ≤ (a - list) / 32 ∧ (a - list) / 32 < i + n then 0 else m a

theorem cut_succ : cut list (i + 1) n (m.set (dirEntryAt list i + 10) 0) = cut list i (n + 1) m := by
  funext a
  unfold cut Mem.set dirEntryAt sizeofDirEntry
  by_cases ha : a = list + 32 * i + 10
  · rw [if_pos ha, ite_self, if_pos]
    omega
  · rw [if_neg ha]
    congr 1
    apply propext
    omega

/-- The byte of an entry is that of no other. -/
theorem cut_entry (ht : i ≤ t ∧ t < i + n) :
    entryBytes (cut list i n m) (dirEntryAt list t) = (entryBytes m (dirEntryAt list t)).set 10 0 := by
  refine List.ext_getElem? fun j => ?_
  by_cases hj : j < sizeofDirEntry
  · rw [entryBytes_getElem? hj, List.getElem?_set, entryBytes_getElem? hj, entryBytes_length]
    unfold cut dirEntryAt
    unfold sizeofDirEntry at hj ⊢
    by_cases h10 : 10 = j
    · rw [if_pos h10, if_pos (by omega), if_pos (by decide)]
    · rw [if_neg h10, if_neg (by omega)]
  · rw [List.getElem?_eq_none (by rw [entryBytes_length]; omega),
      List.getElem?_eq_none (by rw [List.length_set, entryBytes_length]; omega)]

theorem cut_entry_ne (ht : ¬ (i ≤ t ∧ t < i + n)) :
    entryBytes (cut list i n m) (dirEntryAt list t) = entryBytes m (dirEntryAt list t) := by
  refine List.map_congr_left fun j hj => ?_
  have hj := List.mem_range.1 hj
  unfold cut dirEntryAt
  unfold sizeofDirEntry at hj ⊢
  rw [if_neg (by omega)]

/-- The overwritten byte lies behind the part that is compared. -/
theorem starts_set {e : List UInt8} {b : UInt8} : Starts name (e.set 10 b) ↔ Starts name e := by
  refine and_congr_right fun hlen => ?_
  rw [List.prefix_iff_eq_take, List.prefix_iff_eq_take, List.take_set_of_le hlen]

theorem starts_cut : Starts name (entryBytes (cut list i n m) (dirEntryAt list t)) ↔
    Starts name (entryBytes m (dirEntryAt list t)) := by
  by_cases ht : i ≤ t ∧ t < i + n
  · rw [cut_entry ht, starts_set]
  · rw [cut_entry_ne ht]

/-- The first entry that begins with the name. -/
theorem findInCluster_some (h0 : ∀ b ∈ name, b ≠ 0) (hi : i ≤ t) (ht : t < i + n)
    (hfirst : ∀ t', i ≤ t' → t' < t → ¬ Starts name (entryBytes m (dirEntryAt list t')))
    (hs : Starts name (entryBytes m (dirEntryAt list t))) :
    findInCluster list (cstring name) (name.length + 1) n i m = (some t, cut list i (t + 1 - i) m) := by
  induction n generalizing i m with
  | zero => omega
  | succ n ih =>
    have hone : cut list (i + 1) 0 (m.set (dirEntryAt list i + 10) 0) = m.set (dirEntryAt list i + 10) 0 := by
      funext a
      exact if_neg (by omega)
    have hcut : m.set (dirEntryAt list i + 10) 0 = cut list i 1 m := by rw [← hone, cut_succ]
    unfold findInCluster
    dsimp only
    rcases Nat.eq_or_lt_of_le hi with rfl | hlt
    · rw [if_pos ((compare_iff h0).2 hs), hcut, Nat.add_sub_cancel_left]
    · rw [if_neg fun h => hfirst i (Nat.le_refl _) hlt ((compare_iff h0).1 h)]
      have hfirst' : ∀ t', i + 1 ≤ t' → t' < t →
          ¬ Starts name (entryBytes (m.set (dirEntryAt list i + 10) 0) (dirEntryAt list t')) := by
        intro t' h1 h2
        rw [hcut, starts_cut]
        exact hfirst t' (by omega) h2
      have hs' : Starts name (entryBytes (m.set (dirEntryAt list i + 10) 0) (dirEntryAt list t)) := by
        rwa [hcut, starts_cut]
      rw [ih hlt (by omega) hfirst' hs', cut_succ, show t + 1 - (i + 1) + 1 = t + 1 - i by omega]

theorem findInCluster_none (h0 : ∀ b ∈ name, b ≠ 0)
    (hno : ∀ t, i ≤ t → t < i + n → ¬ Starts name (entryBytes m (dirEntryAt list t))) :
    findInCluster list (cstring name) (name.length + 1) n i m = (none, cut list i n m) := by
  induction n generalizing i m with
  | zero =>
    refine Prod.ext rfl (funext fun a => ?_)
    exact (if_neg (by omega)).symm
  | succ n ih =>
    unfold findInCluster
    dsimp only
    rw [if_neg fun h => hno i (Nat.le_refl _) (by omega) ((compare_iff h0).1 h), ih fun t h1 h2 => ?_, cut_succ]
    have hcut : m.set (dirEntryAt list i + 10) 0 = cut list i 1 m := by
      rw [← cut_succ]
      funext a
      exact (if_neg (by omega)).symm
    rw [hcut, starts_cut]
    exact hno t (by omega) (by omega)

end

section
variable {p : Partition} {next : Nat → Nat → Option Nat} {list k c t fuel : Nat} {name : List UInt8}
  {m : Mem} {d : Ata} {cs : List Nat}

theorem entriesPerCluster_eq (h512 : p.bytesPerSector = 512) :
    p.entriesPerCluster = 16 * p.sectorsPerCluster.toNat := by
  unfold Partition.entriesPerCluster sizeofDirEntry
  rw [clusterSize_eq h512]
  omega

/-- The first 16 entries of the buffer are those of the first sector. -/
theorem overlay_entry (ht : t < 16) :
    entryBytes (overlay m list (sentByte d (p.lba c))) (dirEntryAt list t) = diskEntry p d c t := by
  refine List.map_congr_left fun j hj => ?_
  have hj := List.mem_range.1 hj
  unfold overlay dirEntryAt
  unfold sizeofDirEntry at hj ⊢
  rw [if_pos (by omega), Nat.div_eq_of_lt (by omega), Nat.mod_eq_of_lt (by omega), Nat.add_zero,
    show list + 32 * t + j - list = 32 * t + j by omega]

/-- The others are what they were. -/
theorem overlay_entry_ne {f : Nat → UInt8} (ht : 16 ≤ t) :
    entryBytes (overlay m list f) (dirEntryAt list t) = entryBytes m (dirEntryAt list t) := by
  refine List.map_congr_left fun j _ => ?_
  unfold overlay dirEntryAt sizeofDirEntry
  rw [if_neg (by omega)]

theorem diskEntry_congr {d' : Ata} (h : d'.data = d.data) : diskEntry p d' c t = diskEntry p d c t := by
  unfold diskEntry
  exact List.map_congr_left fun j _ => by rw [sentByte_congr h]

/-! ## One round -/

/-- No entry behind the first sector of the buffer begins with the name. -/
def Quiet (p : Partition) (list : Nat) (name : List UInt8) (m : Mem) : Prop :=
  ∀ t, 16 ≤ t → t < p.entriesPerCluster → ¬ Starts name (entryBytes m (dirEntryAt list t))

/-- **A round that finds an entry** in the first sector. -/
theorem findLoop_found (next : Nat → Nat → Option Nat) (list k fuel : Nat) (m : Mem)
    (h0 : ∀ b ∈ name, b ≠ 0) (ht : t < 16) (hlt : t < p.entriesPerCluster)
    (hfirst : ∀ t', t' < t → ¬ Starts name (diskEntry p d c t')) (hs : Starts name (diskEntry p d c t)) :
    ∃ m' d', findLoop p next list (cstring name) (name.length + 1) (fuel + 1) k c (m, d) =
      some (some (k * p.entriesPerCluster + t, (diskEntry p d c t).set 10 0), m', d') := by
  obtain ⟨d', hread, -⟩ := readCluster_eq p c list m d
  unfold findLoop
  rw [hread, Option.bind_some]
  dsimp only
  have hfirst' : ∀ t', 0 ≤ t' → t' < t →
      ¬ Starts name (entryBytes (overlay m list (sentByte d (p.lba c))) (dirEntryAt list t')) := by
    intro t' _ h
    rw [overlay_entry (by omega)]
    exact hfirst t' h
  rw [findInCluster_some h0 (Nat.zero_le t) (by omega) hfirst' (by rwa [overlay_entry ht])]
  dsimp only
  rw [cut_entry (by omega), overlay_entry ht]
  exact ⟨_, _, rfl⟩

/-- A round that finds an entry behind the first sector: the one that the buffer held. -/
theorem findLoop_stale (next : Nat → Nat → Option Nat) (k fuel : Nat) (d : Ata)
    (h0 : ∀ b ∈ name, b ≠ 0) (ht : 16 ≤ t) (hlt : t < p.entriesPerCluster)
    (hno : ∀ t', t' < 16 → ¬ Starts name (diskEntry p d c t'))
    (hold : ∀ t', 16 ≤ t' → t' < t → ¬ Starts name (entryBytes m (dirEntryAt list t')))
    (hs : Starts name (entryBytes m (dirEntryAt list t))) :
    ∃ m' d', findLoop p next list (cstring name) (name.length + 1) (fuel + 1) k c (m, d) =
      some (some (k * p.entriesPerCluster + t, (entryBytes m (dirEntryAt list t)).set 10 0), m', d') := by
  obtain ⟨d', hread, -⟩ := readCluster_eq p c list m d
  unfold findLoop
  rw [hread, Option.bind_some]
  dsimp only
  have hfirst : ∀ t', 0 ≤ t' → t' < t →
      ¬ Starts name (entryBytes (overlay m list (sentByte d (p.lba c))) (dirEntryAt list t')) := by
    intro t' _ h
    by_cases h16 : t' < 16
    · rw [overlay_entry h16]
      exact hno t' h16
    · rw [overlay_entry_ne (by omega)]
      exact hold t' (by omega) h
  rw [findInCluster_some h0 (Nat.zero_le t) (by omega) hfirst (by rwa [overlay_entry_ne ht])]
  dsimp only
  rw [cut_entry (by omega), overlay_entry_ne ht]
  exact ⟨_, _, rfl⟩

/-- **A round that finds nothing**. -/
theorem findLoop_pass (next : Nat → Nat → Option Nat) (h0 : ∀ b ∈ name, b ≠ 0) (hq : Quiet p list name m)
    (hno : ∀ t, t < 16 → t < p.entriesPerCluster → ¬ Starts name (diskEntry p d c t)) :
    ∃ m' d', d'.data = d.data ∧ Quiet p list name m' ∧ ∀ fuel k,
      findLoop p next list (cstring name) (name.length + 1) (fuel + 1) k c (m, d) =
        match next k c with
        | none => some (none, m', d')
        | some c' => findLoop p next list (cstring name) (name.length + 1) fuel (k + 1) c' (m', d') := by
  obtain ⟨d', hread, hdata⟩ := readCluster_eq p c list m d
  refine ⟨cut list 0 p.entriesPerCluster (overlay m list (sentByte d (p.lba c))), d', hdata,
    fun t h1 h2 => ?_, fun fuel k => ?_⟩
  · rw [starts_cut, overlay_entry_ne h1]
    exact hq t h1 h2
  · have hall : ∀ t, 0 ≤ t → t < 0 + p.entriesPerCluster →
        ¬ Starts name (entryBytes (overlay m list (sentByte d (p.lba c))) (dirEntryAt list t)) := by
      intro t _ h
      by_cases h16 : t < 16
      · rw [overlay_entry h16]
        exact hno t h16 (by omega)
      · rw [overlay_entry_ne (by omega)]
        exact hq t (by omega) (by omega)
    rw [findLoop, hread, Option.bind_some]
    dsimp only
    rw [findInCluster_none h0 hall]

/-! ## The chain -/

/-- **Nothing found** in the whole chain. -/
theorem findLoop_none (m : Mem) (d : Ata) (h0 : ∀ b ∈ name, b ≠ 0) (hc : IsChain next k cs) (hq : Quiet p list name m)
    (hno : ∀ c ∈ cs, ∀ t, t < 16 → ¬ Starts name (diskEntry p d c t)) :
    ∃ m' d', findLoop p next list (cstring name) (name.length + 1) cs.length k (cs.headD 0) (m, d) =
      some (none, m', d') := by
  induction cs generalizing k m d with
  | nil => exact hc.elim
  | cons c cs ih =>
    obtain ⟨m', d', hdata, hq', hpass⟩ := findLoop_pass next h0 hq fun t ht _ =>
      hno c List.mem_cons_self t ht
    rw [List.length_cons, List.headD_cons, hpass]
    cases cs with
    | nil =>
      rw [show next k c = none from hc]
      exact ⟨m', d', rfl⟩
    | cons c' cs =>
      rw [show next k c = some c' from hc.1]
      refine ih m' d' hc.2 hq' fun c'' hm t ht => ?_
      rw [diskEntry_congr hdata]
      exact hno c'' (List.mem_cons_of_mem _ hm) t ht

theorem directory_cons : directory p d (c :: cs) = clusterEntries p d c ++ directory p d cs :=
  List.flatMap_cons

theorem directory_congr {d' : Ata} (h : d'.data = d.data) : directory p d' cs = directory p d cs := by
  have hentry : clusterEntries p d' = clusterEntries p d := by
    funext c
    exact List.map_congr_left fun t _ => diskEntry_congr h
  rw [directory, hentry, directory]

theorem clusterEntries_getElem? (ht : t < p.entriesPerCluster) :
    (clusterEntries p d c)[t]? = some (diskEntry p d c t) := by
  simp [clusterEntries, ht]

theorem directory_getElem? (ht : t < p.entriesPerCluster) :
    (directory p d (c :: cs))[t]? = some (diskEntry p d c t) := by
  rw [directory_cons, List.getElem?_append_left (by simpa [clusterEntries] using ht),
    clusterEntries_getElem? ht]

section
variable {P : List UInt8 → Prop}

/-- The first 16 entries are those of the first sector. -/
theorem mem_take_directory (h512 : p.bytesPerSector = 512) (hspc : 1 ≤ p.sectorsPerCluster.toNat) :
    (∃ e ∈ (directory p d (c :: cs)).take 16, P e) ↔ ∃ t, t < 16 ∧ P (diskEntry p d c t) := by
  have hn := entriesPerCluster_eq h512
  have hget : ∀ t, t < 16 → ((directory p d (c :: cs)).take 16)[t]? = some (diskEntry p d c t) :=
    fun t ht => by rw [List.getElem?_take_of_lt ht, directory_getElem? (by omega)]
  constructor
  · rintro ⟨e, he, hP⟩
    obtain ⟨t, ht⟩ := List.mem_iff_getElem?.1 he
    have h16 : t < 16 := by
      refine Classical.byContradiction fun hge => ?_
      rw [List.getElem?_take_eq_none (by omega)] at ht
      cases ht
    rw [hget t h16] at ht
    cases ht
    exact ⟨t, h16, hP⟩
  · rintro ⟨t, ht, hP⟩
    exact ⟨_, List.mem_of_getElem? (hget t ht), hP⟩

/-- The first entry with a property, if there is one in the first sector. -/
theorem directory_first [DecidablePred P] (h512 : p.bytesPerSector = 512) (hspc : 1 ≤ p.sectorsPerCluster.toNat)
    (h : ∃ e ∈ (directory p d (c :: cs)).take 16, P e) :
    ∃ t, t < 16 ∧ P (diskEntry p d c t) ∧ (∀ t', t' < t → ¬ P (diskEntry p d c t')) ∧
      (directory p d (c :: cs)).find? P = some (diskEntry p d c t) := by
  have hn := entriesPerCluster_eq h512
  have hget : ∀ t (ht : t < (directory p d (c :: cs)).length), t < 16 →
      (directory p d (c :: cs))[t] = diskEntry p d c t := fun t ht h16 =>
    Option.some.inj ((List.getElem?_eq_getElem ht).symm.trans (directory_getElem? (by omega)))
  obtain ⟨e, he, hP⟩ := h
  obtain ⟨j, hj, hje⟩ := List.mem_take_iff_getElem.1 he
  cases hfind : (directory p d (c :: cs)).find? P with
  | none => exact absurd (decide_eq_true hP) (List.find?_eq_none.1 hfind e (List.mem_of_mem_take he))
  | some e' =>
    obtain ⟨hs, t, hlt, rfl, hfirst⟩ := List.find?_eq_some_iff_getElem.1 hfind
    have ht : t < 16 := by
      refine Classical.byContradiction fun hge => ?_
      have hnot := hfirst j (by omega)
      rw [hje, decide_eq_true hP] at hnot
      cases hnot
    refine ⟨t, ht, ?_, fun t' ht' hP' => ?_, by rw [hget t hlt ht]⟩
    · rw [← hget t hlt ht]
      exact of_decide_eq_true hs
    · have hnot := hfirst t' ht'
      rw [hget t' (by omega) (by omega), decide_eq_true hP'] at hnot
      cases hnot

end

/-- The first entry of a cluster that begins with the name. -/
theorem clusterEntries_findIdx? (h : (clusterEntries p d c).findIdx? (Starts name) = some t) :
    t < p.entriesPerCluster ∧ Starts name (diskEntry p d c t) ∧
      ∀ t', t' < t → ¬ Starts name (diskEntry p d c t') := by
  obtain ⟨hlt, hs, hfirst⟩ := List.findIdx?_eq_some_iff_getElem.1 h
  have hlen : (clusterEntries p d c).length = p.entriesPerCluster := by simp [clusterEntries]
  have hget : ∀ j (hj : j < (clusterEntries p d c).length), (clusterEntries p d c)[j] = diskEntry p d c j :=
    fun j hj => by simp [clusterEntries]
  rw [hget] at hs
  refine ⟨hlen ▸ hlt, of_decide_eq_true hs, fun t' ht' hs' => hfirst t' ht' ?_⟩
  rw [hget]
  exact decide_eq_true hs'

theorem clusterEntries_findIdx?_none (h : (clusterEntries p d c).findIdx? (Starts name) = none)
    (ht : t < p.entriesPerCluster) : ¬ Starts name (diskEntry p d c t) :=
  of_decide_eq_false (List.findIdx?_eq_none_iff.1 h _ (List.mem_of_getElem? (clusterEntries_getElem? ht)))

/-- **What is found**, where a cluster is a sector: the first entry that begins with the name. -/
theorem findLoop_eq (list : Nat) (m : Mem) (d : Ata) (h0 : ∀ b ∈ name, b ≠ 0)
    (h512 : p.bytesPerSector = 512) (hspc : p.sectorsPerCluster.toNat = 1)
    (hc : IsChain next k cs) : ∃ m' d',
    findLoop p next list (cstring name) (name.length + 1) cs.length k (cs.headD 0) (m, d) =
      some (((directory p d cs).findIdx? (Starts name)).map fun t =>
        (k * p.entriesPerCluster + t, ((directory p d cs).getD t []).set 10 0), m', d') := by
  have hn : p.entriesPerCluster = 16 := by rw [entriesPerCluster_eq h512, hspc]
  induction cs generalizing k m d with
  | nil => exact hc.elim
  | cons c cs ih =>
    rw [List.length_cons, List.headD_cons, directory_cons, List.findIdx?_append]
    cases hfind : (clusterEntries p d c).findIdx? (Starts name) with
    | some t =>
      obtain ⟨ht, hs, hfirst⟩ := clusterEntries_findIdx? hfind
      obtain ⟨m', d', h⟩ := findLoop_found next list k cs.length m h0 (by omega) (by omega) hfirst hs
      refine ⟨m', d', h.trans ?_⟩
      rw [Option.some_or, Option.map_some, List.getD_eq_getElem?_getD,
        List.getElem?_append_left (by simpa [clusterEntries] using ht), clusterEntries_getElem? ht]
      rfl
    | none =>
      have hq : Quiet p list name m := fun t h1 h2 => by omega
      obtain ⟨m', d', hdata, hq', hpass⟩ := findLoop_pass next h0 hq fun t _ ht =>
        clusterEntries_findIdx?_none hfind ht
      rw [hpass, Option.none_or]
      cases cs with
      | nil =>
        rw [show next k c = none from hc]
        exact ⟨m', d', rfl⟩
      | cons c' cs =>
        rw [show next k c = some c' from hc.1]
        obtain ⟨m2, d2, h⟩ := ih m' d' hc.2
        refine ⟨m2, d2, h.trans ?_⟩
        have hlen : (clusterEntries p d c).length = p.entriesPerCluster := by simp [clusterEntries]
        rw [directory_congr hdata, Option.map_map]
        congr 3
        funext t
        dsimp only [Function.comp]
        rw [List.getD_eq_getElem?_getD, List.getD_eq_getElem?_getD, List.getElem?_append_right (by omega),
          Nat.add_sub_cancel, hlen]
        congr 1
        rw [Nat.succ_mul]
        omega

/-! ## Fuel -/

theorem strlen_mono {str : Nat → UInt8} {f n r : Nat} (h : strlen str f n = some r) :
    strlen str (f + 1) n = some r := by
  induction f generalizing n with
  | zero => cases h
  | succ f ih =>
    unfold strlen at h ⊢
    split at h
    · rename_i hne
      rw [if_pos hne]
      exact ih h
    · rename_i hne
      rwa [if_neg hne]

theorem findLoop_succ {str : Nat → UInt8} {len : Nat} {x : Mem × Ata}
    {r : Option (Nat × List UInt8) × Mem × Ata}
    (h : findLoop p next list str len fuel k c x = some r) :
    findLoop p next list str len (fuel + 1) k c x = some r := by
  induction fuel generalizing k c x with
  | zero => cases h
  | succ fuel ih =>
    unfold findLoop at h ⊢
    obtain ⟨y, hy, h⟩ := Option.bind_eq_some_iff.1 h
    rw [hy, Option.bind_some]
    dsimp only at h ⊢
    split at h
    · exact h
    · split at h
      · exact h
      · exact ih h

theorem findFile_mono {root fuel' : Nat} {str : Nat → UInt8} {x : Mem × Ata}
    {r : Option (Nat × List UInt8) × Mem × Ata} (hle : fuel ≤ fuel')
    (h : findFile p next root list str fuel x = some r) :
    findFile p next root list str fuel' x = some r := by
  induction hle with
  | refl => exact h
  | step _ ih =>
    obtain ⟨len, hlen, hr⟩ := Option.bind_eq_some_iff.1 ih
    rw [findFile, strlen_mono hlen, Option.bind_some]
    exact findLoop_succ hr

/-- Two runs have the same result. -/
theorem findFile_unique {root fuel' : Nat} {str : Nat → UInt8} {x : Mem × Ata}
    {r r' : Option (Nat × List UInt8) × Mem × Ata} (h : findFile p next root list str fuel x = some r)
    (h' : findFile p next root list str fuel' x = some r') : r = r' := by
  have h1 := findFile_mono (Nat.le_max_left fuel fuel') h
  rw [findFile_mono (Nat.le_max_right fuel fuel') h'] at h1
  exact (Option.some.inj h1).symm

/-- With fuel for the name the loop decides. -/
theorem findFile_loop {x : Mem × Ata} {r : Option (Nat × List UInt8) × Mem × Ata}
    (h0 : ∀ b ∈ name, b ≠ 0)
    (h : findLoop p next list (cstring name) (name.length + 1) fuel 0 c x = some r) :
    ∃ fuel', findFile p next c list (cstring name) fuel' x = some r := by
  have key : ∀ n, findLoop p next list (cstring name) (name.length + 1) (fuel + n) 0 c x = some r := by
    intro n
    induction n with
    | zero => exact h
    | succ n ih => exact findLoop_succ ih
  refine ⟨fuel + (name.length + 1), ?_⟩
  rw [findFile, strlen_cstring h0 (Nat.zero_le _) (by omega), Option.bind_some]
  exact key _

theorem strlen_some {len : Nat} (h0 : ∀ b ∈ name, b ≠ 0) (h : strlen (cstring name) fuel 0 = some len) :
    len = name.length + 1 := by
  have hmono : strlen (cstring name) (fuel + (name.length + 1)) 0 = some len := by
    induction name.length + 1 with
    | zero => exact h
    | succ n ih => exact strlen_mono ih
  rw [strlen_cstring h0 (Nat.zero_le _) (by omega)] at hmono
  exact (Option.some.inj hmono).symm

theorem findFile_cases {x : Mem × Ata} {r : Option (Nat × List UInt8) × Mem × Ata}
    (h0 : ∀ b ∈ name, b ≠ 0) (h : findFile p next c list (cstring name) fuel x = some r) :
    findLoop p next list (cstring name) (name.length + 1) fuel 0 c x = some r := by
  obtain ⟨len, hlen, hr⟩ := Option.bind_eq_some_iff.1 h
  rwa [strlen_some h0 hlen] at hr

/-! ## What is found -/

theorem findIdx?_starts_none {es : List (List UInt8)} :
    es.findIdx? (Starts name) = none ↔ ∀ e ∈ es, ¬ Starts name e :=
  List.findIdx?_eq_none_iff.trans (forall₂_congr fun _ _ => decide_eq_false_iff_not)

/-- **The first entry that begins with the name is found**, if what the buffer held does not matter. -/
theorem findFile_eq (list : Nat) (m : Mem) (h0 : ∀ b ∈ name, b ≠ 0)
    (h512 : p.bytesPerSector = 512) (hspc : 1 ≤ p.sectorsPerCluster.toNat)
    (hc : IsChain next 0 cs) (hok : p.sectorsPerCluster.toNat = 1 ∨ 10 < name.length ∨
      ∃ e ∈ (directory p d cs).take 16, Starts name e) :
    ∃ fuel m' d', findFile p next (cs.headD 0) list (cstring name) fuel (m, d) =
      some (((directory p d cs).findIdx? (Starts name)).map fun t =>
        (t, ((directory p d cs).getD t []).set 10 0), m', d') := by
  rcases hok with h1 | hlen | ⟨e, he, hs⟩
  · obtain ⟨m', d', h⟩ := findLoop_eq list m d h0 h512 h1 hc
    simp only [Nat.zero_mul, Nat.zero_add] at h
    obtain ⟨fuel, h⟩ := findFile_loop h0 h
    exact ⟨fuel, m', d', h⟩
  · have hno : ∀ e, ¬ Starts name e := fun e h => by
      have := h.1
      omega
    obtain ⟨m', d', h⟩ := findLoop_none m d h0 hc
      (show Quiet p list name m from fun _ _ _ => hno _) fun _ _ _ _ => hno _
    obtain ⟨fuel, h⟩ := findFile_loop h0 h
    refine ⟨fuel, m', d', h.trans ?_⟩
    rw [findIdx?_starts_none.2 fun e _ => hno e]
    rfl
  · cases cs with
    | nil => exact hc.elim
    | cons c cs =>
      have hn := entriesPerCluster_eq h512
      have hget : ∀ t, t < 16 → (directory p d (c :: cs))[t]? = some (diskEntry p d c t) :=
        fun t ht => directory_getElem? (by omega)
      obtain ⟨j, hj, hje⟩ := List.mem_take_iff_getElem.1 he
      cases hfind : (directory p d (c :: cs)).findIdx? (Starts name) with
      | none => exact absurd hs (findIdx?_starts_none.1 hfind e (List.mem_of_mem_take he))
      | some t =>
        obtain ⟨hlt, hst, hfirst⟩ := List.findIdx?_eq_some_iff_getElem.1 hfind
        have helem : ∀ t' (h : t' < (directory p d (c :: cs)).length), t' < 16 →
            (directory p d (c :: cs))[t'] = diskEntry p d c t' := fun t' h h16 =>
          Option.some.inj ((List.getElem?_eq_getElem h).symm.trans (hget t' h16))
        have ht : t < 16 := by
          refine Classical.byContradiction fun hge => hfirst j (by omega) ?_
          rw [decide_eq_true_iff, hje]
          exact hs
        rw [decide_eq_true_iff, helem t hlt ht] at hst
        have hfirst' : ∀ t', t' < t → ¬ Starts name (diskEntry p d c t') := fun t' h hs' =>
          hfirst t' h (by rw [decide_eq_true_iff, helem t' (by omega) (by omega)]; exact hs')
        obtain ⟨m', d', h⟩ := findLoop_found next list 0 0 m h0 ht (by omega) hfirst' hst
        obtain ⟨fuel, h⟩ := findFile_loop h0 h
        refine ⟨fuel, m', d', h.trans ?_⟩
        rw [Option.map_some, Nat.zero_mul, Nat.zero_add, List.getD_eq_getElem?_getD, hget t ht]
        rfl

/-- **What the buffer held is found**: entry 16, with any byte behind the name. -/
theorem findFile_stale (next : Nat → Nat → Option Nat) (list : Nat) (d : Ata)
    (h0 : ∀ b ∈ name, b ≠ 0) (h512 : p.bytesPerSector = 512) (hspc : 2 ≤ p.sectorsPerCluster.toNat)
    (hlen : name.length ≤ 10)
    (hne : cs ≠ []) (hno : ∀ e ∈ (directory p d cs).take 16, ¬ Starts name e) (b : UInt8) :
    ∃ m fuel e m' d',
      findFile p next (cs.headD 0) list (cstring name) fuel (m, d) = some (some (16, e), m', d') ∧
        e.getD 10 0 = 0 ∧ e.getD 11 0 = b := by
  obtain ⟨c, cs, rfl⟩ := List.exists_cons_of_ne_nil hne
  have hn := entriesPerCluster_eq h512
  have hno' : ∀ t, t < 16 → ¬ Starts name (diskEntry p d c t) := by
    intro t ht hs
    obtain ⟨e, he, hse⟩ := (mem_take_directory h512 (by omega)).2 ⟨t, ht, hs⟩
    exact hno e he hse
  let m : Mem := fun a => if a - dirEntryAt list 16 < name.length then
    cstring name (a - dirEntryAt list 16) else b
  have hs : Starts name (entryBytes m (dirEntryAt list 16)) := by
    refine ⟨hlen, (prefix_entryBytes (show name.length ≤ 32 by omega)).2 fun j hj => ?_⟩
    show (if dirEntryAt list 16 + j - dirEntryAt list 16 < name.length then _ else b) = _
    rw [Nat.add_sub_cancel_left, if_pos hj]
  obtain ⟨m', d', h⟩ := findLoop_stale next 0 0 d
    h0 (Nat.le_refl 16) (by omega) hno' (fun t' h1 h2 => by omega) hs
  obtain ⟨fuel, h⟩ := findFile_loop h0 h
  refine ⟨m, fuel, _, m', d', by rw [List.headD_cons, h, Nat.zero_mul, Nat.zero_add], ?_, ?_⟩
  · rw [List.getD_eq_getElem?_getD, List.getElem?_set_self (by rw [entryBytes_length]; decide)]
    rfl
  · rw [List.getD_eq_getElem?_getD, List.getElem?_set_ne (by decide), entryBytes_getElem? (by decide)]
    show (if dirEntryAt list 16 + 11 - dirEntryAt list 16 < name.length then _ else b) = _
    rw [Nat.add_sub_cancel_left, if_neg (by omega)]

/-- The entry that is looked for has a name, also in byte 10. -/
theorem wanted_named {es : List (List UInt8)} (h0 : ∀ b ∈ name, b ≠ 0) (h : wanted name es = some t) :
    (es.getD t []).getD 10 0 ≠ 0 := by
  obtain ⟨hlt, hnamed, -⟩ := List.findIdx?_eq_some_iff_getElem.1 h
  have hpre := List.takeWhile_prefix (fun e : List UInt8 => decide (e.getD 0 0 ≠ 0)) (l := es)
  have hin : t < es.length := Nat.lt_of_lt_of_le hlt hpre.length_le
  rw [decide_eq_true_iff, hpre.getElem hlt] at hnamed
  rw [List.getD_eq_getElem?_getD (l := es), List.getElem?_eq_getElem hin, Option.getD_some]
  generalize es[t] = e at hnamed
  have hlen : 10 < (padded name).length := by
    rw [padded, List.length_append, List.length_replicate]
    omega
  have hbyte : e.getD 10 0 = (padded name)[10] := by
    have h10 : (e.take 11)[10]? = (padded name)[10]? := by rw [hnamed.2.2]
    rw [List.getElem?_take_of_lt (by decide), List.getElem?_eq_getElem hlen] at h10
    rw [List.getD_eq_getElem?_getD, h10, Option.getD_some]
  rw [hbyte]
  have hmem : (padded name)[10] ∈ padded name := List.getElem_mem hlen
  rcases List.mem_append.1 hmem with hmem | hmem
  · exact h0 _ hmem
  · rw [(List.mem_replicate.1 hmem).2]
    decide

theorem getD_set_self (e : List UInt8) : (e.set 10 0).getD 10 0 = 0 := by
  rw [List.getD_eq_getElem?_getD, List.getElem?_set, if_pos rfl]
  split <;> rfl

/-- **When a copy is returned**: never of an entry, since byte 10 of it is lost. -/
theorem findsCopy_iff (h0 : ∀ b ∈ name, b ≠ 0) (h512 : p.bytesPerSector = 512)
    (hspc : 1 ≤ p.sectorsPerCluster.toNat)
    (hc : IsChain next 0 cs) : FindsCopy p next list d cs name ↔
      (p.sectorsPerCluster.toNat = 1 ∨ 10 < name.length) ∧
        (∀ e ∈ directory p d cs, ¬ Starts name e) ∧ wanted name (directory p d cs) = none := by
  have hne : cs ≠ [] := by
    rintro rfl
    exact hc
  constructor
  · intro h
    -- a copy has a zero in byte 10
    have hnone : ∀ m fuel r e m' d', findFile p next (cs.headD 0) list (cstring name) fuel (m, d) =
        some (some (r, e), m', d') → e.getD 10 0 = 0 → False := by
      intro m fuel t e m' d' hrun he
      obtain ⟨fuel', r', m2, d2, hrun', hr⟩ := h m
      cases findFile_unique hrun hrun'
      obtain ⟨t', ht', he'⟩ := Option.map_eq_some_iff.1 hr.symm
      have he' : (directory p d cs).getD t' [] = e := he'
      rw [← he'] at he
      exact wanted_named h0 ht' he
    by_cases hok : p.sectorsPerCluster.toNat = 1 ∨ 10 < name.length ∨
        ∃ e ∈ (directory p d cs).take 16, Starts name e
    · obtain ⟨fuel, m', d', hrun⟩ := findFile_eq list (fun _ => 0) h0 h512 hspc hc hok
      cases hfind : (directory p d cs).findIdx? (Starts name) with
      | some t =>
        rw [hfind] at hrun
        exact (hnone _ _ _ _ _ _ hrun (getD_set_self _)).elim
      | none =>
        rw [hfind] at hrun
        obtain ⟨fuel', r', m2, d2, hrun', hr⟩ := h fun _ => 0
        cases findFile_unique hrun hrun'
        have hno := findIdx?_starts_none.1 hfind
        refine ⟨hok.imp_right fun h => h.resolve_right ?_, hno, Option.map_eq_none_iff.1 hr.symm⟩
        rintro ⟨e, he, hs⟩
        exact hno e (List.mem_of_mem_take he) hs
    · obtain ⟨m, fuel, e, m', d', hrun, he, -⟩ := findFile_stale next list d h0 h512
        (show 2 ≤ p.sectorsPerCluster.toNat by omega) (by omega) hne
        (fun e he hs => hok (.inr (.inr ⟨e, he, hs⟩))) 0
      exact (hnone _ _ _ _ _ _ hrun he).elim
  · rintro ⟨hsmall, hno, hw⟩ m
    obtain ⟨fuel, m', d', hrun⟩ := findFile_eq list m h0 h512 hspc hc
      (hsmall.imp_right .inl)
    refine ⟨fuel, _, m', d', hrun, ?_⟩
    rw [findIdx?_starts_none.2 hno, hw]
    rfl

/-- **When the right entry is found**: if it is the first one that begins with the name, and what the
buffer held does not matter. -/
theorem findsEntry_iff (h0 : ∀ b ∈ name, b ≠ 0) (h512 : p.bytesPerSector = 512)
    (hspc : 1 ≤ p.sectorsPerCluster.toNat)
    (hc : IsChain next 0 cs) : FindsEntry p next list d cs name ↔
      (p.sectorsPerCluster.toNat = 1 ∨ 10 < name.length ∨
        ∃ e ∈ (directory p d cs).take 16, Starts name e) ∧
      (directory p d cs).findIdx? (Starts name) = wanted name (directory p d cs) := by
  have hne : cs ≠ [] := by
    rintro rfl
    exact hc
  constructor
  · intro h
    by_cases hok : p.sectorsPerCluster.toNat = 1 ∨ 10 < name.length ∨
        ∃ e ∈ (directory p d cs).take 16, Starts name e
    · refine ⟨hok, ?_⟩
      obtain ⟨fuel, m', d', hrun⟩ := findFile_eq list (fun _ => 0) h0 h512 hspc hc hok
      obtain ⟨fuel', r', m2, d2, hrun', hr⟩ := h fun _ => 0
      cases findFile_unique hrun hrun'
      have hplace := congrArg (Option.map Prod.fst) hr
      rw [Option.map_map, Option.map_map] at hplace
      simpa [Function.comp_def] using hplace
    · obtain ⟨m, fuel, e, m', d', hrun, -, he⟩ := findFile_stale next list d h0 h512
        (show 2 ≤ p.sectorsPerCluster.toNat by omega) (by omega) hne
        (fun e he hs => hok (.inr (.inr ⟨e, he, hs⟩)))
        (((directory p d cs).getD 16 []).getD 11 0 + 1)
      -- the byte behind the name is another one than on the disk
      obtain ⟨fuel', r', m2, d2, hrun', hr⟩ := h m
      cases findFile_unique hrun hrun'
      obtain ⟨t, -, ht⟩ := Option.map_eq_some_iff.1 hr.symm
      cases ht
      rw [List.getD_eq_getElem?_getD, List.getElem?_set_ne (by decide), ← List.getD_eq_getElem?_getD] at he
      generalize ((directory p d cs).getD 16 []).getD 11 0 = b at he
      exact absurd he (by simp)
  · rintro ⟨hok, heq⟩ m
    obtain ⟨fuel, m', d', hrun⟩ := findFile_eq list m h0 h512 hspc hc hok
    exact ⟨fuel, _, m', d', hrun, by rw [heq]⟩

/-- **Directory lookup**: a copy of the right entry is never returned, since byte 10 of it is lost, and the
right entry is found if it is the first one that begins with the name. -/
theorem find_file_iff (h0 : ∀ b ∈ name, b ≠ 0) (h512 : p.bytesPerSector = 512)
    (hspc : 1 ≤ p.sectorsPerCluster.toNat)
    (hc : IsChain next 0 cs) :
    (FindsCopy p next list d cs name ↔ (p.sectorsPerCluster.toNat = 1 ∨ 10 < name.length) ∧
      (∀ e ∈ directory p d cs, ¬ Starts name e) ∧ wanted name (directory p d cs) = none) ∧
    (FindsEntry p next list d cs name ↔
      (p.sectorsPerCluster.toNat = 1 ∨ 10 < name.length ∨
        ∃ e ∈ (directory p d cs).take 16, Starts name e) ∧
      (directory p d cs).findIdx? (Starts name) = wanted name (directory p d cs)) :=
  ⟨findsCopy_iff h0 h512 hspc hc, findsEntry_iff h0 h512 hspc hc⟩

end

/-! ## Two directories -/

/-- A drive with these bytes at the start of sector 1000. -/
def driveWith (bytes : List UInt8) : Ata :=
  { markedDrive 0 with
    data := fun slave lba i => if slave = false ∧ lba = 1000 then
      BitVec.ofNat 16 ((bytes.getD (2 * i) 0).toNat + 256 * (bytes.getD (2 * i + 1) 0).toNat) else 0 }

/-- An entry of a file. -/
def namedEntry (name : List UInt8) : List UInt8 := padded name ++ List.replicate 21 0

/-- `LS` and `LSX`. -/
def ls : List UInt8 := [0x4C, 0x53]
def lsx : List UInt8 := [0x4C, 0x53, 0x58]

theorem ls_noNul : ∀ b ∈ ls, b ≠ 0 := by simp [ls]

/-- The entry is found where no other one begins with the name. -/
theorem find_file_ls : FindsEntry ⟨1000, 1, 512⟩ (fun _ _ => none) 0
    (driveWith (namedEntry [0x58] ++ namedEntry ls)) [2] ls := by
  have hc : IsChain (fun _ _ => none) 0 [2] := rfl
  exact (find_file_iff ls_noNul rfl (by decide) hc).2.2 ⟨.inl rfl, by decide⟩

/-- **Another file is found**: with `LSX` in front of it, `LS` is not found. -/
theorem prefix_found :
    (∃ fuel e m' d', findFile ⟨1000, 1, 512⟩ (fun _ _ => none) 2 0 (cstring ls) fuel
      (fun _ => 0, driveWith (namedEntry lsx ++ namedEntry ls)) = some (some (0, e), m', d')) ∧
    wanted ls (directory ⟨1000, 1, 512⟩ (driveWith (namedEntry lsx ++ namedEntry ls)) [2]) = some 1 ∧
    ¬ FindsCopy ⟨1000, 1, 512⟩ (fun _ _ => none) 0 (driveWith (namedEntry lsx ++ namedEntry ls)) [2] ls ∧
    ¬ FindsEntry ⟨1000, 1, 512⟩ (fun _ _ => none) 0 (driveWith (namedEntry lsx ++ namedEntry ls)) [2] ls := by
  have hplaces : (directory ⟨1000, 1, 512⟩ (driveWith (namedEntry lsx ++ namedEntry ls)) [2]).findIdx? (Starts ls) =
      some 0 ∧
      wanted ls (directory ⟨1000, 1, 512⟩ (driveWith (namedEntry lsx ++ namedEntry ls)) [2]) = some 1 := by
    decide
  obtain ⟨hfind, hw⟩ := hplaces
  have hc : IsChain (fun _ _ => none) 0 [2] := rfl
  refine ⟨?_, hw, fun h => ?_, fun h => ?_⟩
  · obtain ⟨fuel, m', d', h⟩ := findFile_eq (p := ⟨1000, 1, 512⟩) 0 (fun _ => 0)
      (d := driveWith (namedEntry lsx ++ namedEntry ls)) ls_noNul rfl (by decide) hc (.inl rfl)
    rw [hfind] at h
    exact ⟨fuel, _, m', d', h⟩
  · have := ((findsCopy_iff ls_noNul rfl (by decide) hc).1 h).2.2
    rw [hw] at this
    cases this
  · have := ((findsEntry_iff ls_noNul rfl (by decide) hc).1 h).2
    rw [hfind, hw] at this
    cases this

end Fat32
