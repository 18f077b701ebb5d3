import Jaos.Elf.Segments

/-!
# What loading a program touches (`kernel/elf.c`)

`Touches file m t`: in the machine `m`, `load_executable` comes to the access `t` while it goes through
the headers of the file in its buffer. It reads fields of the headers and bytes of the segments from the
buffer, maps pages and writes bytes. `Confined`: it reads inside the buffer only, and maps and writes below
3 GB only, in every system. It compares no field of the file with anything, so this is up to the file:
`InBounds` says what its headers must be like, and `InBounds.confined` that this is enough.
-/

namespace Program

open Lib Paging Elf64 Memman

/-! ## Accesses -/

/-- An access of `load_executable`: `n` bytes of the buffer, a page that it maps, a byte that it writes.
`overflow` is the `int` counter of `memcpy` behind its range. -/
inductive Touch
  | read (offset n : Nat)
  | map (page : Nat)
  | write (addr : Addr)
  | overflow

/-- The access stays in a buffer of `size` bytes and in the user's part of memory. -/
def Touch.Inside (size : Nat) : Touch → Prop
  | .read offset n => offset + n ≤ size
  | .map page => page < 0xC0000
  | .write addr => addr < 0xC0000000
  | .overflow => False

instance (size : Nat) : (t : Touch) → Decidable (t.Inside size)
  | .read offset n => inferInstanceAs (Decidable (offset + n ≤ size))
  | .map page => inferInstanceAs (Decidable (page < 0xC0000))
  | .write addr => inferInstanceAs (Decidable (addr < 0xC0000000))
  | .overflow => inferInstanceAs (Decidable False)

/-- The fields of `Elf64_Ehdr` that are read for every accepted file: offset and size. -/
def headerFields : List (Nat × Nat) :=
  [(0, 1), (1, 1), (2, 1), (3, 1), (0x10, 2), (0x12, 2), (0x14, 4), (0x20, 8), (0x38, 2)]

section
variable (file : Mem) (i : Nat) (m : Machine)

/-- `alloc_page` comes to page `n` of the segment and has a frame for it. -/
def ComesToPage (n : Nat) : Prop :=
  n < memsz file i / memBlockSize + 1 ∧
    ∃ m', allocFrom (fun n => add64 (vaddr file i) (n * 0x1000)) true n 0 m = some (true, m') ∧
      (memAllocBlock m'.frames).1 ≠ 0

/-- The pages of the segment are mapped, and `memcpy` is called in `m'`. -/
def Maps (m' : Machine) : Prop :=
  ∃ p, p ≠ 0 ∧ allocPage (vaddr file i) (memsz file i / memBlockSize + 1) m = some (p, m')

/-- `memcpy`, called in `m`, has copied `n` bytes of the segment. -/
def HasCopied (n : Nat) : Prop :=
  ∃ m', loop (fun n => storeByte (add64 (vaddr file i) n) (file (add64 (offset file i) n))) n 0 m = some m'

/-- The accesses of the body of the loop for header `i`. -/
inductive SegmentTouches : Touch → Prop
  | type : SegmentTouches (.read (add64 (phdr file i) 0x00) 4)
  | vaddr : pType file (phdr file i) = 1 → SegmentTouches (.read (add64 (phdr file i) 0x10) 8)
  | memsz : pType file (phdr file i) = 1 → SegmentTouches (.read (add64 (phdr file i) 0x28) 8)
  | page {n : Nat} : pType file (phdr file i) = 1 → ComesToPage file i m n →
      SegmentTouches (.map (Addr.frame (add64 (Program.vaddr file i) (n * 0x1000))))
  | offset {m' : Machine} : pType file (phdr file i) = 1 → Maps file i m m' →
      SegmentTouches (.read (add64 (phdr file i) 0x08) 8)
  | filesz {m' : Machine} : pType file (phdr file i) = 1 → Maps file i m m' →
      SegmentTouches (.read (add64 (phdr file i) 0x20) 8)
  | source {m' : Machine} {n : Nat} : pType file (phdr file i) = 1 → Maps file i m m' →
      Program.filesz file i < 2 ^ 63 → n < Program.filesz file i → n < 2 ^ 31 → HasCopied file i m' n →
      SegmentTouches (.read (add64 (Program.offset file i) n) 1)
  | dest {m' : Machine} {n : Nat} : pType file (phdr file i) = 1 → Maps file i m m' →
      Program.filesz file i < 2 ^ 63 → n < Program.filesz file i → n < 2 ^ 31 → HasCopied file i m' n →
      SegmentTouches (.write (add64 (Program.vaddr file i) n))
  | overflow {m' : Machine} : pType file (phdr file i) = 1 → Maps file i m m' →
      Program.filesz file i < 2 ^ 63 → 2 ^ 31 ≤ Program.filesz file i → HasCopied file i m' (2 ^ 31) →
      SegmentTouches .overflow

/-- The accesses of `load_executable` to the file and to the program's memory. The last one is that to
`e_entry`. -/
inductive Touches : Touch → Prop
  | header {f : Nat × Nat} : f ∈ headerFields → Touches (.read f.1 f.2)
  | segment {i : Nat} {m' : Machine} {t : Touch} : i < ePhnum file →
      loadSegments file i 0 m = some (true, m') → SegmentTouches file i m' t → Touches t
  | entry {m' : Machine} : loadSegments file (ePhnum file) 0 m = some (true, m') → Touches (.read 0x18 8)

end

/-- **An executable that cannot touch the kernel**: loaded into any system with memory in order, it
makes `load_executable` read only the `size` bytes of its buffer, and map and write only the user's
memory. -/
def Confined (file : Mem) (size : Nat) : Prop :=
  ∀ s m, UserSpace s m → ∀ t, Touches file m t → t.Inside size

/-! ## The condition on the file -/

/-- The field of `n` bytes at `offset` in header `i` lies in the buffer. -/
def FieldInside (file : Mem) (size i offset n : Nat) : Prop := add64 (phdr file i) offset + n ≤ size

instance (file : Mem) (size i offset n : Nat) : Decidable (FieldInside file size i offset n) :=
  inferInstanceAs (Decidable (_ ≤ _))

/-- The bounds that header `i` must keep. -/
structure SegmentInBounds (file : Mem) (size i : Nat) : Prop where
  type : FieldInside file size i 0x00 4
  pages : pType file (phdr file i) = 1 → FieldInside file size i 0x10 8 ∧ FieldInside file size i 0x28 8 ∧
    Addr.frame (vaddr file i) + memsz file i / 4096 < 0xC0000
  bytes : pType file (phdr file i) = 1 → vaddr file i ≠ 0 →
    FieldInside file size i 0x08 8 ∧ FieldInside file size i 0x20 8 ∧
      (filesz file i = 0 ∨ 2 ^ 63 ≤ filesz file i ∨
        filesz file i < 2 ^ 31 ∧ offset file i + filesz file i ≤ size ∧
          vaddr file i + filesz file i ≤ 0xC0000000)

/-- The headers up to the first segment at address 0, where `load_executable` gives up. -/
def Considered (file : Mem) (i : Nat) : Prop :=
  i < ePhnum file ∧ ∀ j, j < i → pType file (phdr file j) = 1 → vaddr file j ≠ 0

/-- The condition on the file. -/
structure InBounds (file : Mem) (size : Nat) : Prop where
  header : 0x3A ≤ size
  segments : ∀ i, Considered file i → SegmentInBounds file size i

/-! ## The condition is enough -/

section
variable {file : Mem} {size i j k n : Nat} {s : Shape} {m m' : Machine} {t : Touch}

/-- The page behind the address of page `n`. -/
theorem frame_add (v n : Nat) : Addr.frame (add64 v (n * 0x1000)) = (Addr.frame v + n) % 2 ^ 36 := by
  unfold Addr.frame add64
  omega

/-- `alloc_page` returns the address it was given. -/
theorem Maps.vaddr (h : Maps file i m m') : vaddr file i ≠ 0 := by
  obtain ⟨p, hp, ha⟩ := h
  unfold allocPage at ha
  obtain ⟨⟨ok, m1⟩, -, he⟩ := Option.map_eq_some_iff.1 ha
  obtain ⟨hpe, -⟩ := Prod.mk.inj he
  cases ok with
  | false => exact absurd hpe.symm hp
  | true =>
    rw [if_pos rfl] at hpe
    rwa [hpe]

/-- A segment that has been loaded does not lie at address 0. -/
theorem vaddr_of_loadSegment (h : loadSegment file (phdr file i) m = some (true, m'))
    (htype : pType file (phdr file i) = 1) : vaddr file i ≠ 0 := by
  rw [loadSegment_load htype] at h
  obtain ⟨⟨p, m1⟩, ha, h⟩ := Option.bind_eq_some_iff.1 h
  dsimp only at h
  split at h
  · cases h
  · rename_i hp
    exact Maps.vaddr ⟨p, hp, ha⟩

/-- The headers that the loop has gone through. -/
theorem vaddr_of_loadSegments (h : loadSegments file k i m = some (true, m')) (hij : i ≤ j)
    (hjk : j < i + k) (htype : pType file (phdr file j) = 1) : vaddr file j ≠ 0 := by
  induction k generalizing i m with
  | zero => omega
  | succ k ih =>
    obtain ⟨⟨ok, m1⟩, h1, h⟩ := Option.bind_eq_some_iff.1 h
    cases ok with
    | false => cases h
    | true =>
      rcases Nat.eq_or_lt_of_le hij with rfl | hlt
      · exact vaddr_of_loadSegment h1 htype
      · exact ih h (by omega) (by omega)

/-- A header in bounds keeps its segment in bounds, whatever the machine. -/
theorem SegmentInBounds.inside (h : SegmentInBounds file size i) (ht : SegmentTouches file i m t) :
    t.Inside size := by
  -- where bytes are copied, the sizes are those of the last case of `bytes`
  have hcopy : ∀ {m' n}, pType file (phdr file i) = 1 → Maps file i m m' → filesz file i < 2 ^ 63 →
      n < filesz file i → filesz file i < 2 ^ 31 ∧ offset file i + filesz file i ≤ size ∧
        vaddr file i + filesz file i ≤ 0xC0000000 := by
    intro m' n htype hmaps hsigned hn
    rcases (h.bytes htype hmaps.vaddr).2.2 with h0 | hneg | hin
    · omega
    · omega
    · exact hin
  cases ht with
  | type => exact h.type
  | vaddr htype => exact (h.pages htype).1
  | memsz htype => exact (h.pages htype).2.1
  | page htype hpage =>
    rename_i n
    have hlt := (h.pages htype).2.2
    have hn : n < memsz file i / 4096 + 1 := hpage.1
    show Addr.frame (add64 (vaddr file i) (n * 0x1000)) < 0xC0000
    rw [frame_add]
    omega
  | offset htype hmaps => exact (h.bytes htype hmaps.vaddr).1
  | filesz htype hmaps => exact (h.bytes htype hmaps.vaddr).2.1
  | source htype hmaps hsigned hn =>
    rename_i n _ _
    obtain ⟨-, hoff, -⟩ := hcopy htype hmaps hsigned hn
    have hle : add64 (offset file i) n ≤ offset file i + n := Nat.mod_le _ _
    show add64 (offset file i) n + 1 ≤ size
    omega
  | dest htype hmaps hsigned hn =>
    rename_i n _ _
    obtain ⟨-, -, hlow⟩ := hcopy htype hmaps hsigned hn
    have hle : add64 (vaddr file i) n ≤ vaddr file i + n := Nat.mod_le _ _
    show add64 (vaddr file i) n < 0xC0000000
    omega
  | overflow htype hmaps hsigned hlarge =>
    obtain ⟨hlt, -, -⟩ := hcopy htype hmaps hsigned (show 0 < filesz file i by omega)
    omega

/-- **A file in bounds stays away from the kernel**, in every machine. -/
theorem InBounds.inside (h : InBounds file size) (ht : Touches file m t) : t.Inside size := by
  have hheader := h.header
  cases ht with
  | header hf =>
    rename_i f
    have hle : ∀ f ∈ headerFields, f.1 + f.2 ≤ 0x3A := by decide
    exact Nat.le_trans (hle f hf) hheader
  | segment hi hload hseg =>
    rename_i i m'
    have hcons : Considered file i :=
      ⟨hi, fun j hj => vaddr_of_loadSegments hload (Nat.zero_le j) (by omega)⟩
    exact (h.segments i hcons).inside hseg
  | entry _ =>
    show 0x18 + 8 ≤ size
    omega

theorem InBounds.confined (h : InBounds file size) : Confined file size :=
  fun _ _ _ _ ht => h.inside ht

end

end Program
