import Jaos.Elf.LoadExecutable
import Jaos.Memory.Proof.OldEntries

/-!
# The segments of a file, loaded one after the other

`Loading file i j s m s' m'`: what the loop of `load_executable` has done to the memory of the program when
it went from header `i` to header `j`. A byte that a segment copied is the file's unless a later segment
mapped its page (`copied`), a byte of a page that was mapped and not copied is what a free frame held
(`stale`), and all others are as they were (`other`). One segment is `Loading.segment`, the loop
`Loading.segments`; there new tables come from frames without entries. Where their old entries are out of
the way (`ClearFor`), the loop takes the same steps without them (`Veil.segments`).
-/

namespace Program

open Lib Paging Kheap Elf64

section
variable (file : Mem) (i : Nat)

def vaddr : Nat := pVaddr file (phdr file i)
def memsz : Nat := pMemsz file (phdr file i)
def filesz : Nat := pFilesz file (phdr file i)
def offset : Nat := pOffset file (phdr file i)

/-- Header `i` is that of a segment. -/
def Loadable : Prop := i < ePhnum file ∧ pType file (phdr file i) = 1

/-- Segment `i` asks `alloc_page` for the page `q`. -/
def Asks (q : Nat) : Prop :=
  Loadable file i ∧ vaddr file i / 4096 ≤ q ∧ q ≤ vaddr file i / 4096 + memsz file i / 4096

/-- `v` is a byte of segment `i`. -/
def Covers (v : Nat) : Prop :=
  Loadable file i ∧ vaddr file i ≤ v ∧ v < vaddr file i + memsz file i

/-- `v` is a byte of segment `i` that `memcpy` writes. -/
def Copies (v : Nat) : Prop :=
  Loadable file i ∧ vaddr file i ≤ v ∧ v < vaddr file i + copyLength (filesz file i)

/-- The byte of segment `i` at `v`. -/
def wanted (v : Nat) : UInt8 :=
  if v < vaddr file i + filesz file i then file (offset file i + (v - vaddr file i)) else 0

end

/-- A file of `size` bytes that `elf_check` accepts, with segments below 3 GB that do not overlap. -/
structure Image (file : Mem) (size : Nat) : Prop where
  accepted : elfCheck file = 0
  length : size < 2 ^ 64
  low : ∀ i, Loadable file i → vaddr file i + memsz file i ≤ 0xC0000000
  apart : ∀ i j v, Covers file i v → Covers file j v → i = j
  part : ∀ i, Loadable file i → filesz file i ≤ memsz file i
  inside : ∀ i, Loadable file i → offset file i + filesz file i ≤ size

/-- The pages that the segments ask for are the program's. -/
def PagesBelow (file : Mem) : Prop := ∀ i q, Asks file i q → q < 0xC0000

/-- Segment `i` uses the page of `v`. -/
def Uses (file : Mem) (i : Nat) (v : Addr) : Prop :=
  User v ∧ (Covers file i v ∨ Asks file i (Addr.frame v))

/-- **No old entry is in the way of the segments**: none on the way to a page that a segment uses, and at
its end none that is read before it is overwritten. -/
def ClearFor (file : Mem) (e : Event) : Prop :=
  e.HasFrame ∧ ∀ i v, Uses file i v → e.Clear (∃ j, j ≤ i ∧ Asks file j (Addr.frame v)) v

/-! ## One segment -/

/-- What the segments `[i, j)` change (module doc). -/
structure Loading (file : Mem) (i j : Nat) (s : Shape) (m : Machine) (s' : Shape) (m' : Machine) : Prop
    extends Keep s m s' m' where
  copied : ∀ n v, i ≤ n → n < j → Copies file n v →
    (∀ n', n < n' → n' < j → ¬ Asks file n' (v / 4096)) →
    loadByte v m' = some (file (offset file n + (v - vaddr file n)))
  other : ∀ v, v < 0xC0000000 → (∀ n, i ≤ n → n < j → ¬ Asks file n (v / 4096) ∧ ¬ Copies file n v) →
    loadByte v m' = loadByte v m
  stale : ∀ n v, v < 0xC0000000 → i ≤ n → n < j → Asks file n (v / 4096) →
    (∀ n', n ≤ n' → n' < j → ¬ Copies file n' v) → ∃ f, m.frames.memoryMap.bit f = false ∧
      loadByte v m' = some ((m.phys f (Addr.offset v / 8)).byte (v % 8))

section
variable {file : Mem} {size i j k : Nat} {s s' s'' : Shape} {m m' m'' : Machine}

theorem Image.low_byte (I : Image file size) {v : Nat} (h : Covers file i v) : v < 0xC0000000 := by
  have := I.low i h.1
  have := h.2.2
  omega

theorem Image.covers (I : Image file size) {v : Nat} (h : Copies file i v) : Covers file i v := by
  have h1 := I.part i h.1
  have h2 := copyLength_le (filesz file i)
  have h3 := h.2.2
  exact ⟨h.1, h.2.1, by omega⟩

/-- Only one segment copies a byte. -/
theorem Image.once (I : Image file size) {v : Nat} (h : Copies file i v) (h' : Copies file j v) :
    i = j := I.apart i j v (I.covers h) (I.covers h')

theorem Loading.refl (U : UserSpace s m) : Loading file i i s m s m :=
  ⟨.refl U, fun n _ h1 h2 => by omega, fun _ _ _ => rfl, fun n _ _ h1 h2 => by omega⟩

/-- **Segments loaded one after the other.** -/
theorem Loading.trans (I : Image file size) (hij : i ≤ j) (hjk : j ≤ k)
    (h : Loading file i j s m s' m') (h' : Loading file j k s' m' s'' m'') :
    Loading file i k s m s'' m'' := by
  refine ⟨h.toKeep.trans h'.toKeep, fun n v h1 h2 hc hlast => ?_, fun v hv hno => ?_,
    fun n v hv h1 h2 ha hno => ?_⟩
  · by_cases hn : j ≤ n
    · exact h'.copied n v hn h2 hc hlast
    · have hother := h'.other v (I.low_byte (I.covers hc)) fun n' h3 h4 =>
        ⟨hlast n' (by omega) h4, fun hc' => by have := I.once hc hc'; omega⟩
      rw [hother]
      exact h.copied n v h1 (by omega) hc fun n' h3 h4 => hlast n' h3 (by omega)
  · rw [h'.other v hv fun n h3 h4 => hno n (by omega) h4,
      h.other v hv fun n h3 h4 => hno n h3 (by omega)]
  · have hold : ∀ n, j ≤ n → n < k → Asks file n (v / 4096) →
        (∀ n', n ≤ n' → n' < k → ¬ Copies file n' v) → ∃ f, m.frames.memoryMap.bit f = false ∧
          loadByte v m'' = some ((m.phys f (Addr.offset v / 8)).byte (v % 8)) := by
      intro n h3 h4 ha hno
      obtain ⟨f, hf, hl⟩ := h'.stale n v hv h3 h4 ha hno
      obtain ⟨hf0, hphys⟩ := h.free f hf
      exact ⟨f, hf0, by rw [hl, hphys]⟩
    by_cases hn : j ≤ n
    · exact hold n hn h2 ha hno
    · by_cases hlater : ∃ n', j ≤ n' ∧ n' < k ∧ Asks file n' (v / 4096)
      · obtain ⟨n', h3, h4, ha'⟩ := hlater
        exact hold n' h3 h4 ha' fun x h5 h6 => hno x (by omega) h6
      · have hother := h'.other v hv fun n' h3 h4 =>
          ⟨fun ha' => hlater ⟨n', h3, h4, ha'⟩, hno n' (by omega) h4⟩
        rw [hother]
        exact h.stale n v hv h1 (by omega) ha fun n' h3 h4 => hno n' h3 (by omega)

/-- The pages of segment `i`. -/
theorem PagesBelow.low (h : PagesBelow file) (hl : Loadable file i) :
    PagesLow (vaddr file i) (memsz file i / 4096 + 1) := fun q h1 h2 => h i q ⟨hl, h1, by omega⟩

/-- The pages that segment `i` asks for. -/
theorem asks_iff (hl : Loadable file i) (q : Nat) : Asks file i q ↔
    vaddr file i / 4096 ≤ q ∧ q < vaddr file i / 4096 + (memsz file i / 4096 + 1) :=
  ⟨fun h => ⟨h.2.1, Nat.lt_succ_of_le h.2.2⟩, fun h => ⟨hl, h.1, Nat.le_of_lt_succ h.2⟩⟩

/-- The bytes that `memcpy` writes lie below 3 GB. -/
theorem Image.copy_low (I : Image file size) (hl : Loadable file i) :
    vaddr file i + copyLength (filesz file i) ≤ 0xC0000000 := by
  have h1 := I.low i hl
  have h2 := I.part i hl
  have h3 := copyLength_le (filesz file i)
  omega

theorem loadSegment_cases {m' : Machine} (hi : i < ePhnum file)
    (h : loadSegment file (phdr file i) m = some (true, m')) :
    Loadable file i ∧ (∃ p m1, p ≠ 0 ∧ allocPage (vaddr file i) (memsz file i / 4096 + 1) m = some (p, m1) ∧
      memcpy (vaddr file i) (fun n => file (add64 (offset file i) n)) (filesz file i) m1 = some m') ∨
      ¬ Loadable file i ∧ m' = m := by
  by_cases htype : pType file (phdr file i) = 1
  · refine .inl ⟨⟨hi, htype⟩, ?_⟩
    rw [loadSegment_load htype] at h
    obtain ⟨⟨p, m1⟩, ha, h⟩ := Option.bind_eq_some_iff.1 h
    dsimp only at h
    split at h
    · cases h
    · rename_i hp
      obtain ⟨m2, hc, he⟩ := Option.map_eq_some_iff.1 h
      cases he
      exact ⟨p, m1, hp, ha, hc⟩
  · rw [loadSegment_skip htype] at h
    cases h
    exact .inr ⟨fun hl => htype hl.2, rfl⟩

theorem extends_loadSegment {ok : Bool} {ph : Nat} (h : loadSegment file ph m = some (ok, m')) :
    Extends m m' := by
  by_cases htype : pType file ph = 1
  · rw [loadSegment_load htype] at h
    obtain ⟨⟨p, m1⟩, ha, h⟩ := Option.bind_eq_some_iff.1 h
    have hm1 := extends_allocPage ha
    dsimp only at h
    split at h
    · cases h
      exact hm1
    · obtain ⟨m2, hc, he⟩ := Option.map_eq_some_iff.1 h
      cases he
      exact hm1.trans (extends_memcpy hc)
  · rw [loadSegment_skip htype] at h
    cases h
    exact .refl m

theorem extends_loadSegments {ok : Bool} (h : loadSegments file k i m = some (ok, m')) :
    Extends m m' := by
  induction k generalizing i m with
  | zero =>
    cases h
    exact .refl _
  | succ k ih =>
    rw [loadSegments_succ] at h
    obtain ⟨⟨ok1, m1⟩, h1, h⟩ := Option.bind_eq_some_iff.1 h
    have hm1 := extends_loadSegment h1
    cases ok1 with
    | false =>
      cases h
      exact hm1
    | true => exact hm1.trans (ih h)

/-- **One segment loaded.** -/
theorem Loading.segment (I : Image file size) (U : UserSpace s m) (hi : i < ePhnum file)
    (hlow : PagesBelow file) (h : loadSegment file (phdr file i) m = some (true, m'))
    (hlog : ∀ e ∈ m'.log, e.Ok) : ∃ s', Loading file i (i + 1) s m s' m' := by
  rcases loadSegment_cases hi h with ⟨hl, p, m1, hp, ha, hc⟩ | ⟨hl, rfl⟩
  · obtain ⟨s', -, F⟩ := U.allocPage (Nat.succ_ne_zero _) (hlow.low hl) ha hp fun e he =>
      hlog e ((extends_memcpy hc).log.subset he)
    have C := F.space.memcpy (I.copy_low hl) hc
    have hframe : ∀ v, v < 0xC0000000 → Addr.frame v = v / 4096 := fun v hv => User.lt hv |>.2.2
    refine ⟨s', F.toKeep.trans C.toKeep, fun n v h1 h2 hcopy _ => ?_, fun v hv hno => ?_,
      fun n v hv h1 h2 hask hno => ?_⟩
    · obtain rfl : n = i := by omega
      obtain ⟨-, hlo, hhi⟩ := hcopy
      have hlen : v - vaddr file n < filesz file n :=
        Nat.lt_of_lt_of_le (show _ < copyLength (filesz file n) by omega) (copyLength_le _)
      have hin := I.inside n hl
      have hsize := I.length
      rw [C.byte v (I.low_byte (I.covers ⟨hl, hlo, hhi⟩)), if_pos ⟨hlo, hhi⟩,
        add64_of_lt (by omega)]
    · obtain ⟨hnask, hncopy⟩ := hno i (Nat.le_refl _) (Nat.lt_succ_self _)
      rw [C.byte v hv, if_neg fun hc => hncopy ⟨hl, hc⟩]
      refine F.other v hv fun hT => hnask ?_
      rw [hframe v hv] at hT
      exact (asks_iff hl _).2 hT
    · obtain rfl : n = i := by omega
      obtain ⟨f, hf, hbyte⟩ := F.stale v hv (by rw [hframe v hv]; exact (asks_iff hl _).1 hask)
      refine ⟨f, hf, ?_⟩
      rw [C.byte v hv, if_neg fun hc => hno n (Nat.le_refl _) (Nat.lt_succ_self _) ⟨hl, hc⟩]
      exact hbyte
  · exact ⟨s, .refl U, fun n v h1 h2 hc => absurd hc.1 (by rwa [show n = i by omega]),
      fun _ _ _ => rfl, fun n v _ h1 h2 hask => absurd hask.1 (by rwa [show n = i by omega])⟩

/-- **The loop of `load_executable`.** -/
theorem Loading.segments (I : Image file size) (U : UserSpace s m) (hlow : PagesBelow file)
    (hik : i + k ≤ ePhnum file) (h : loadSegments file k i m = some (true, m'))
    (hlog : ∀ e ∈ m'.log, e.Ok) : ∃ s', Loading file i (i + k) s m s' m' := by
  induction k generalizing i s m with
  | zero =>
    cases h
    exact ⟨s, .refl U⟩
  | succ k ih =>
    rw [loadSegments_succ] at h
    obtain ⟨⟨ok, m1⟩, h1, h⟩ := Option.bind_eq_some_iff.1 h
    cases ok with
    | false => cases h
    | true =>
      obtain ⟨s1, L⟩ := Loading.segment I U (by omega) hlow h1 fun e he =>
        hlog e ((extends_loadSegments h).log.subset he)
      obtain ⟨s', L'⟩ := ih L.space (by omega) h
      rw [show i + 1 + k = i + (k + 1) by omega] at L'
      exact ⟨s', L.trans I (by omega) (by omega) L'⟩

/-! ## The same load without the old entries -/

section
variable {E : Prop} {c : Entry} {L : List Event} {M g : Machine}

/-- One segment, in both memories. -/
theorem Veil.segment (V : Veil E c L M (fun q => ∃ j, j < i ∧ Asks file j q) s m g)
    (hc : c.present = false) (I : Image file size) (hlow : PagesBelow file) (hi : i < ePhnum file)
    (hclear : ∀ e, Since L M e → ClearFor file e)
    (h : loadSegment file (phdr file i) m = some (true, m')) (hbefore : Extends m' M)
    (hne : ∀ a f old, Since L M (.table a f old) → f ≠ 0) :
    ∃ s' g', loadSegment file (phdr file i) g = some (true, g') ∧
      Veil E c L M (fun q => ∃ j, j < i + 1 ∧ Asks file j q) s' m' g' := by
  rcases loadSegment_cases hi h with ⟨hl, p, m1, hp, ha, hcopy⟩ | ⟨hl, rfl⟩
  · have hpages : ∀ j, j < memsz file i / 4096 + 1 →
        ∃ P, ClearTo L M P (add64 (vaddr file i) (j * 0x1000)) := by
      intro j hj
      obtain ⟨huser, hframe⟩ := (hlow.low hl).address hj
      refine ⟨_, fun e he => (hclear e he).2 i _ ⟨huser, .inr ?_⟩⟩
      rw [hframe]
      exact (asks_iff hl _).2 ⟨by omega, by omega⟩
    obtain ⟨s', g1, hg1, V1⟩ := V.allocPage hc (Nat.succ_ne_zero _) (hlow.low hl) hpages ha hp
      ((extends_memcpy hcopy).trans hbefore) hne
    have hbytes : ∀ j, j < copyLength (filesz file i) → vaddr file i + j < 0xC0000000 ∧
        ∃ P, ClearTo L M P (vaddr file i + j) ∧
          (((∃ n, n < i ∧ Asks file n (Addr.frame (vaddr file i + j))) ∨
            vaddr file i / 4096 ≤ Addr.frame (vaddr file i + j) ∧
              Addr.frame (vaddr file i + j) < vaddr file i / 4096 + (memsz file i / 4096 + 1)) ∨ ¬ P) := by
      intro j hj
      have hlt := I.copy_low hl
      have huser : User (vaddr file i + j) := show vaddr file i + j < 0xC0000000 by omega
      have hcov : Covers file i (vaddr file i + j) := I.covers ⟨hl, by omega, by omega⟩
      refine ⟨huser, _, fun e he => (hclear e he).2 i _ ⟨huser, .inl hcov⟩, ?_⟩
      -- the page of the byte has been asked for, or no segment so far asks for it
      by_cases hasked : ∃ n, n ≤ i ∧ Asks file n (Addr.frame (vaddr file i + j))
      · obtain ⟨n, hn, hask⟩ := hasked
        by_cases hni : n = i
        · rw [hni] at hask
          exact .inl (.inr ((asks_iff hl _).1 hask))
        · exact .inl (.inl ⟨n, by omega, hask⟩)
      · exact .inr hasked
    obtain ⟨g', hg', V'⟩ := V1.memcpy hbytes hcopy hbefore hne
    refine ⟨s', g', ?_, { V' with filled := fun v hv hq => V'.filled v hv ?_ }⟩
    · unfold vaddr memsz at hg1
      unfold vaddr offset filesz at hg'
      rw [loadSegment_load hl.2, hg1, Option.bind_some]
      dsimp only
      rw [if_neg hp, hg', Option.map_some]
    · obtain ⟨j, hj, hask⟩ := hq
      by_cases hji : j = i
      · rw [hji] at hask
        exact .inr ((asks_iff hl _).1 hask)
      · exact .inl ⟨j, by omega, hask⟩
  · refine ⟨s, g, loadSegment_skip fun htype => hl ⟨hi, htype⟩, { V with
      filled := fun v hv ⟨j, hj, hask⟩ => V.filled v hv ⟨j, ?_, hask⟩ }⟩
    refine Nat.lt_of_le_of_ne (Nat.le_of_lt_succ hj) fun hji => hl ?_
    exact hji ▸ hask.1

/-- **The loop**, in both memories. -/
theorem Veil.segments (V : Veil E c L M (fun q => ∃ j, j < i ∧ Asks file j q) s m g)
    (hc : c.present = false) (I : Image file size) (hlow : PagesBelow file) (hik : i + k ≤ ePhnum file)
    (hclear : ∀ e, Since L M e → ClearFor file e)
    (h : loadSegments file k i m = some (true, m')) (hbefore : Extends m' M)
    (hne : ∀ a f old, Since L M (.table a f old) → f ≠ 0) :
    ∃ s' g', loadSegments file k i g = some (true, g') ∧
      Veil E c L M (fun q => ∃ j, j < i + k ∧ Asks file j q) s' m' g' := by
  induction k generalizing i s m g with
  | zero =>
    cases h
    exact ⟨s, g, rfl, V⟩
  | succ k ih =>
    rw [loadSegments_succ] at h
    obtain ⟨⟨ok, m1⟩, h1, h⟩ := Option.bind_eq_some_iff.1 h
    cases ok with
    | false => cases h
    | true =>
      obtain ⟨s1, g1, hg1, V1⟩ := Veil.segment V hc I hlow (by omega) hclear h1
        ((extends_loadSegments h).trans hbefore) hne
      obtain ⟨s', g', hg', V'⟩ := ih V1 (by omega) h
      rw [show i + 1 + k = i + (k + 1) by omega] at V'
      refine ⟨s', g', ?_, V'⟩
      rw [loadSegments_succ, hg1, Option.bind_some]
      exact hg'

end

end

end Program
