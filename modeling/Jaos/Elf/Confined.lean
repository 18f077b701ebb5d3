import Jaos.Elf.LoadedImage
import Jaos.Elf.Touches
import Jaos.Memory.Proof.Ample

/-!
# Executables that cannot touch the kernel

A file is `Confined` exactly if its headers are `InBounds` (`confined_iff`). For the converse of
`InBounds.confined` the file is loaded into a system with room: there every page is allocated and every
byte copied until the first access that leaves the bounds (`Ample.segmentInBounds`). `load_executable`
checks none of the fields, so most files are not confined (`kernel_touched`).
-/

namespace Program

open Lib Paging Elf64 Memman

section
variable {file : Mem} {size i k n c : Nat} {s : Shape} {m m' : Machine} {t : Touch}

/-! ## Segments that are loaded -/

/-- The pages of a segment in bounds are mapped. -/
theorem Ample.maps (h : Ample (c + 0xC0000) s m)
    (hpages : Addr.frame (vaddr file i) + memsz file i / 4096 < 0xC0000) (hv : vaddr file i ≠ 0) :
    ∃ s' m', Maps file i m m' ∧ Ample c s' m' := by
  have hsize : memsz file i / memBlockSize + 1 ≤ 0xC0000 := by
    show memsz file i / 4096 + 1 ≤ 0xC0000
    omega
  have hroom : Ample (c + (memsz file i / memBlockSize + 1)) s m := h.mono (by omega)
  have hlow : ∀ j, 0 ≤ j → j < 0 + (memsz file i / memBlockSize + 1) →
      Addr.frame (add64 (vaddr file i) (j * 0x1000)) < 0xC0000 := by
    intro j _ hj
    have hj : j < 0 + (memsz file i / 4096 + 1) := hj
    rw [frame_add]
    omega
  obtain ⟨s', m', hrun, hm'⟩ := hroom.allocFrom hlow
  refine ⟨s', m', ⟨vaddr file i, hv, ?_⟩, hm'⟩
  exact congrArg (Option.map _) hrun

/-- A segment in bounds is loaded, unless it lies at address 0. -/
theorem SegmentInBounds.load (h : SegmentInBounds file size i) (hm : Ample (c + 0xC0000) s m)
    (hv : pType file (phdr file i) = 1 → vaddr file i ≠ 0) :
    ∃ s' m', loadSegment file (phdr file i) m = some (true, m') ∧ Ample c s' m' := by
  by_cases htype : pType file (phdr file i) = 1
  · obtain ⟨-, -, hpages⟩ := h.pages htype
    obtain ⟨s', m1, ⟨p, hp, ha⟩, hm1⟩ := Ample.maps hm hpages (hv htype)
    have hcopy : ∃ m', memcpy (vaddr file i) (fun n => file (add64 (offset file i) n)) (filesz file i) m1 =
        some m' ∧ Ample c s' m' := by
      unfold memcpy
      rcases (h.bytes htype (hv htype)).2.2 with h0 | hneg | ⟨hlt, -, hlow⟩
      · rw [h0, if_pos (by decide)]
        exact ⟨m1, rfl, hm1⟩
      · rw [if_neg (by omega), if_neg (by omega)]
        exact ⟨m1, rfl, hm1⟩
      · rw [if_pos hlt]
        exact hm1.copy fun j hj => by omega
    obtain ⟨m', hc, hm'⟩ := hcopy
    refine ⟨s', m', ?_, hm'⟩
    unfold vaddr memsz memBlockSize at ha
    unfold vaddr offset filesz at hc
    rw [loadSegment_load htype, ha, Option.bind_some]
    dsimp only
    rw [if_neg hp, hc, Option.map_some]
  · exact ⟨s, m, loadSegment_skip htype, hm.mono (by omega)⟩

theorem load_segments (h : ∀ j, i ≤ j → j < i + k → SegmentInBounds file size j ∧
      (pType file (phdr file j) = 1 → vaddr file j ≠ 0)) (hm : Ample (c + k * 0xC0000) s m) :
    ∃ s' m', loadSegments file k i m = some (true, m') ∧ Ample c s' m' := by
  induction k generalizing i s m with
  | zero => exact ⟨s, m, rfl, hm.mono (by omega)⟩
  | succ k ih =>
    obtain ⟨hin, hv⟩ := h i (Nat.le_refl i) (by omega)
    obtain ⟨s1, m1, h1, hm1⟩ := hin.load (c := c + k * 0xC0000) (hm.mono (by omega)) hv
    obtain ⟨s', m', h', hm'⟩ := ih (i := i + 1) (fun j h1 h2 => h j (by omega) (by omega)) hm1
    refine ⟨s', m', ?_, hm'⟩
    rw [loadSegments_succ, h1, Option.bind_some]
    exact h'

/-! ## The condition is necessary -/

/-- In a system with room `alloc_page` comes to the first page of the kernel. -/
theorem Ample.pages (h : Ample (0xC0000 + 1) s m) (htype : pType file (phdr file i) = 1)
    (ht : ∀ t, SegmentTouches file i m t → t.Inside size) :
    Addr.frame (vaddr file i) + memsz file i / 4096 < 0xC0000 := by
  refine Nat.lt_of_not_le fun hover => ?_
  have hlt : Addr.frame (vaddr file i) < 2 ^ 36 := Nat.mod_lt _ (by decide)
  -- the pages in front of page `n` lie below 3 GB
  generalize hn : 0xC0000 - Addr.frame (vaddr file i) = n
  have hroom : Ample (1 + n) s m := h.mono (by omega)
  have hlow : ∀ j, 0 ≤ j → j < 0 + n → Addr.frame (add64 (vaddr file i) (j * 0x1000)) < 0xC0000 := by
    intro j _ hj
    rw [frame_add]
    omega
  obtain ⟨s', m', hrun, hm'⟩ := hroom.allocFrom hlow
  have hpage := ht _ (.page htype ⟨show n < memsz file i / 4096 + 1 by omega, m', hrun, hm'.frames.alloc.1⟩)
  have hpage : Addr.frame (add64 (vaddr file i) (n * 0x1000)) < 0xC0000 := hpage
  rw [frame_add] at hpage
  omega

/-- There bytes below 3 GB are copied. -/
theorem Ample.hasCopied (h : Ample c s m) (hlow : ∀ j, j < n → vaddr file i + j < 0xC0000000) :
    HasCopied file i m n := by
  obtain ⟨m', hrun, -⟩ :=
    @Ample.copy c n s m (vaddr file i) (fun n => file (add64 (offset file i) n)) h hlow
  exact ⟨m', hrun⟩

/-- There `memcpy` comes to the first byte that is not inside. -/
theorem Ample.bytes (h : Ample c s m') (htype : pType file (phdr file i) = 1) (hmaps : Maps file i m m')
    (hsize : size < 2 ^ 64) (ht : ∀ t, SegmentTouches file i m t → t.Inside size)
    (hsigned : filesz file i < 2 ^ 63) : ∀ n, n < filesz file i → n < 2 ^ 31 →
      offset file i + n < size ∧ vaddr file i + n < 0xC0000000 := by
  have hoffset : offset file i < 2 ^ 64 := Mem.load_lt _ _ _
  have hvaddr : vaddr file i < 2 ^ 64 := Mem.load_lt _ _ _
  intro n
  induction n using Nat.strongRecOn with
  | ind n ih =>
    intro hn hint
    have hcopied : HasCopied file i m' n :=
      Ample.hasCopied h fun j hj => (ih j hj (by omega) (by omega)).2
    have hread : add64 (offset file i) n + 1 ≤ size :=
      ht _ (.source htype hmaps hsigned hn hint hcopied)
    have hwrite : add64 (vaddr file i) n < 0xC0000000 :=
      ht _ (.dest htype hmaps hsigned hn hint hcopied)
    have hsum : offset file i + n < 2 ^ 64 ∧ vaddr file i + n < 2 ^ 64 := by
      rcases Nat.eq_zero_or_pos n with h0 | hpos
      · rw [h0, Nat.add_zero, Nat.add_zero]
        exact ⟨hoffset, hvaddr⟩
      · have := ih (n - 1) (by omega) (by omega) (by omega)
        omega
    rw [add64_of_lt hsum.1] at hread
    rw [add64_of_lt hsum.2] at hwrite
    exact ⟨Nat.lt_of_succ_le hread, hwrite⟩

/-- **One header**: what it makes `load_executable` touch in a system with room shows its bounds. -/
theorem Ample.segmentInBounds (h : Ample (0xC0000 + 1) s m) (hsize : size < 2 ^ 64)
    (ht : ∀ t, SegmentTouches file i m t → t.Inside size) : SegmentInBounds file size i := by
  refine ⟨ht _ .type, fun htype => ⟨ht _ (.vaddr htype), ht _ (.memsz htype), Ample.pages h htype ht⟩,
    fun htype hv => ?_⟩
  have hroom : Ample (1 + 0xC0000) s m := h.mono (by omega)
  obtain ⟨s', m', hmaps, hm'⟩ := Ample.maps hroom (Ample.pages h htype ht) hv
  refine ⟨ht _ (.offset htype hmaps), ht _ (.filesz htype hmaps), ?_⟩
  by_cases h0 : filesz file i = 0
  · exact .inl h0
  by_cases hsigned : filesz file i < 2 ^ 63
  · refine .inr (.inr ?_)
    have hbytes := Ample.bytes hm' htype hmaps hsize ht hsigned
    have hint : filesz file i < 2 ^ 31 := by
      refine Nat.lt_of_not_le fun hlarge => ?_
      have hcopied : HasCopied file i m' (2 ^ 31) :=
        Ample.hasCopied hm' fun j hj => (hbytes j (by omega) hj).2
      exact ht _ (.overflow htype hmaps hsigned hlarge hcopied)
    have hlast := hbytes (filesz file i - 1) (by omega) (by omega)
    exact ⟨hint, by omega, by omega⟩
  · exact .inr (.inl (by omega))

/-- **The condition is necessary.** -/
theorem Confined.inBounds (h : Confined file size) (hsize : size < 2 ^ 64) : InBounds file size := by
  have hfull := h fullShape fullSpace userSpace_fullSpace
  have hnum : ePhnum file < 2 ^ 16 := Mem.load_lt _ _ _
  refine ⟨hfull _ (.header (f := (0x38, 2)) (by decide)), fun i => ?_⟩
  induction i using Nat.strongRecOn with
  | ind i ih =>
    intro hi
    have hbefore : ∀ j, 0 ≤ j → j < 0 + i → SegmentInBounds file size j ∧
        (pType file (phdr file j) = 1 → vaddr file j ≠ 0) := by
      intro j _ hj
      have hji : j < i := by omega
      exact ⟨ih j hji ⟨Nat.lt_trans hji hi.1, fun x hx => hi.2 x (by omega)⟩, hi.2 j hji⟩
    have hcount : 0xC0000 + 1 + i * 0xC0000 ≤ 2 ^ 36 := by
      have := hi.1
      omega
    obtain ⟨s', m', hload, hm'⟩ := load_segments hbefore (ample_fullSpace hcount)
    exact Ample.segmentInBounds hm' hsize fun t ht => hfull t (.segment hi.1 hload ht)

/-- **Which executables cannot touch the kernel**: those with headers in bounds. -/
theorem confined_iff (hsize : size < 2 ^ 64) : Confined file size ↔ InBounds file size :=
  ⟨fun h => h.inBounds hsize, InBounds.confined⟩

/-- A file whose segment lies in its buffer and far below 3 GB. -/
theorem confined_iff_oneSegment : Confined (fileIn 16) 0x2000 := by
  have hnum : ePhnum (fileIn 16) = 1 := by decide
  refine (confined_iff (by decide)).2 ⟨by decide, fun i hi => ?_⟩
  obtain rfl : i = 0 := by
    have := hi.1
    omega
  exact ⟨by decide, fun _ => by decide, fun _ _ => by decide⟩

end

/-! ## A segment in the kernel -/

/-- A file of `0x2000` bytes with 16 bytes for `0xF0000000`. -/
def kernelSegment : Mem :=
  let m : Mem := Mem.store (fun _ => 0) 0 4 0x464C457F
  let m := (((m.store 0x10 2 2).store 0x12 2 62).store 0x14 4 1).store 0x18 8 0xF0000000
  let m := (m.store 0x20 8 64).store 0x38 2 1
  ((((m.store 64 4 1).store 72 8 0x100).store 80 8 0xF0000000).store 96 8 16).store 104 8 16

/-- The frames from 5 on are free. -/
def spareSpace : Machine := { emptySpace with frames := ⟨5, 64, fun _ => 31⟩ }

theorem userSpace_spareSpace : UserSpace emptyShape spareSpace :=
  ⟨⟨emptySpace_forest (by decide), emptySpace_linked, by decide, emptySpace_plain⟩,
    ⟨rfl, ⟨by decide, by decide⟩, .inl rfl⟩, fun _ h => h.elim⟩

/-- **The kernel's memory is mapped for the program**: the file passes `elf_check`, `load_executable`
returns its entry point, and the page at `0xF0000000` has been mapped. -/
theorem kernel_touched : ¬ ∀ buffer h s m size, elfCheck (image buffer h) = 0 → Buffer buffer h →
    UserSpace s m → ∀ r h' m', loadExecutable buffer h m = some (r, h', m') →
      r = 0 ∨ ∀ t, Touches (image buffer h) m t → t.Inside size := by
  intro hall
  have hrun : ((loadExecutable 0xC0019010 (bufferHeap kernelSegment) spareSpace).map fun r => r.1) =
      some 0xF0000000 := by
    decide +kernel
  obtain ⟨⟨r, h', m'⟩, hload, hr⟩ := Option.map_eq_some_iff.1 hrun
  rcases hall 0xC0019010 (bufferHeap kernelSegment) emptyShape spareSpace 0x2000 (by decide)
    (buffer_bufferHeap _) userSpace_spareSpace r h' m' hload with h0 | hinside
  · rw [show r = 0xF0000000 from hr] at h0
    exact absurd h0 (by decide)
  · have hpage := hinside _ (.segment (i := 0) (by decide) rfl
      (.page (n := 0) (by decide) ⟨Nat.succ_pos _, spareSpace, rfl, by decide⟩))
    revert hpage
    decide

end Program
