import Jaos.Elf.Elf64

/-!
# The two loaders

Both loaders take the loadable headers of a table (`copies`), the kernel with a distance of 56 bytes from
header to header, the boot loader with 48. The boot loader tests its counter at the end of the loop, so a
table without headers is one of `2 ^ 64` (`loadelf_eq`). The kernel gives up at a segment for address 0
(`validPrefix`), and its `memcpy` goes by a signed size (`loadExecutable_eq`). `loads_same_iff` says what the
image must be like for the two to agree.
-/

namespace Elf64

open Lib

/-- The loadable ones of the `n` headers from `ph` on that lie `stride` bytes apart. -/
def copies (m : Mem) (stride : Nat) : (n ph : Nat) → List Copy
  | 0, _ => []
  | n + 1, ph => (copyOf m ph).toList ++ copies m stride n (add64 ph stride)

/-- The number of headers `loadelf` looks at. -/
def loopCount (n : Nat) : Nat := if n = 0 then 2 ^ 64 else n

/-- Header `i` of the table at `ph` as the boot loader finds it. -/
def header48 (ph i : Nat) : Nat := add64 ph (48 * i)

/-- The segments up to the first one for address 0. -/
def validPrefix (l : List Copy) : List Copy := l.takeWhile fun c => decide (c.destination ≠ 0)

/-- The bytes of a segment that `memcpy` copies. -/
def Copy.signed (c : Copy) : Copy := if c.length < 2 ^ 31 then c else { c with length := 0 }

/-- The `int` counter of `memcpy` does not overflow. -/
def Copy.Countable (c : Copy) : Prop := c.length < 2 ^ 31 ∨ 2 ^ 63 ≤ c.length

instance (c : Copy) : Decidable c.Countable := inferInstanceAs (Decidable (_ ∨ _))

/-- **The loaders agree**: `loadelf` ends, with the copies of `load_executable`. -/
def LoadsSame (m : Mem) : Prop :=
  (∃ fuel l, loadelf m fuel = some l) ∧ ∀ fuel l, loadelf m fuel = some l → loadExecutable m = some l

/-- The headers behind the first hold the same segments with either distance: those found 48 bytes apart
are what the kernel copies of those found 56 bytes apart. -/
def SameRest (m : Mem) : Prop :=
  let kernel := validPrefix (copies m 56 (ePhnum m - 1) (add64 (ePhoff m) 56))
  (∀ c ∈ kernel, c.Countable) ∧
    copies m 48 (ePhnum m - 1) (add64 (ePhoff m) 48) = kernel.map Copy.signed

/-- The condition on the image. Without headers, no header 48 bytes further and further on is loadable by
chance. Else the first header, if it is loadable, is not for address 0 and of a size that `memcpy` copies,
and the rest of the table holds the same segments with either distance. -/
def HarmlessStride (m : Mem) : Prop :=
  if ePhnum m = 0 then ∀ i, i < 2 ^ 64 → pType m (header48 (ePhoff m) i) ≠ 1
  else (pType m (ePhoff m) = 1 → pVaddr m (ePhoff m) ≠ 0 ∧ pFilesz m (ePhoff m) < 2 ^ 31) ∧ SameRest m

section
variable {m : Mem} {stride n ph i fuel : Nat}

theorem add64_add64 (a b c : Nat) : add64 (add64 a b) c = add64 a (b + c) := by
  unfold add64
  omega

theorem add64_zero (h : ph < 2 ^ 64) : add64 ph 0 = ph := add64_of_lt h

theorem ePhoff_lt (m : Mem) : ePhoff m < 2 ^ 64 := m.load_lt 0x20 8

theorem ePhnum_lt (m : Mem) : ePhnum m < 2 ^ 16 := m.load_lt 0x38 2

theorem copyOf_none : copyOf m ph = none ↔ pType m ph ≠ 1 := by
  unfold copyOf
  split <;> simp [*]

/-- What the kernel copies of a list of segments. -/
def kernelCopies (l : List Copy) : Option (List Copy) :=
  if ∀ c ∈ validPrefix l, c.Countable then some ((validPrefix l).map Copy.signed) else none

theorem validPrefix_cons {c : Copy} {l : List Copy} (h : c.destination ≠ 0) :
    validPrefix (c :: l) = c :: validPrefix l := List.takeWhile_cons_of_pos (decide_eq_true h)

theorem kernelCopies_cons {c : Copy} {l : List Copy} : kernelCopies (c :: l) =
    if c.destination = 0 then some []
    else if c.Countable then (kernelCopies l).map (c.signed :: ·) else none := by
  unfold kernelCopies
  by_cases h0 : c.destination = 0
  · simp [validPrefix, h0]
  rw [validPrefix_cons h0, if_neg h0]
  by_cases hc : c.Countable
  · rw [if_pos hc]
    by_cases hl : ∀ c ∈ validPrefix l, c.Countable
    · rw [if_pos hl, if_pos (List.forall_mem_cons.2 ⟨hc, hl⟩)]
      rfl
    · rw [if_neg hl, if_neg fun h => hl (List.forall_mem_cons.1 h).2]
      rfl
  · rw [if_neg hc, if_neg fun h => hc (List.forall_mem_cons.1 h).1]

theorem recorder_memcpy {c : Copy} {l : List Copy} :
    recorder.memcpy c.destination c.offset c.length l =
      if c.Countable then some (l ++ [c.signed]) else none := by
  unfold recorder Copy.signed
  dsimp only
  by_cases h : c.length < 2 ^ 31
  · have hc : c.Countable := .inl h
    rw [if_pos h, if_pos hc, if_pos h]
  · by_cases h' : c.length < 2 ^ 63
    · have hc : ¬ c.Countable := not_or.2 ⟨h, Nat.not_le.2 h'⟩
      rw [if_neg h, if_pos h', if_neg hc]
    · have hc : c.Countable := .inr (Nat.not_lt.1 h')
      rw [if_neg h, if_neg h', if_pos hc, if_neg h]

/-- One header of the kernel's loop. -/
theorem loadSegment_recorder {l : List Copy} : loadSegment recorder m ph l = match copyOf m ph with
    | none => some (true, l)
    | some c => if c.destination = 0 then some (false, l)
        else if c.Countable then some (true, l ++ [c.signed]) else none := by
  unfold loadSegment copyOf
  by_cases htype : pType m ph = 1
  · rw [if_pos htype, if_pos htype]
    generalize pVaddr m ph = v, pMemsz m ph = size, pOffset m ph = o, pFilesz m ph = n
    have halloc : recorder.allocPage v (size / 4096 + 1) l = some (v, l) := rfl
    have hcopy := @recorder_memcpy ⟨v, o, n⟩ l
    rw [halloc, Option.bind_some]
    dsimp only at hcopy ⊢
    rw [hcopy]
    split
    · rfl
    · split <;> rfl
  · rw [if_neg htype, if_neg htype]

/-- **The kernel** takes the headers 56 bytes apart. -/
theorem loadSegments_recorder {l : List Copy} (k i : Nat) :
    (loadSegments recorder m k i l).map Prod.snd =
      (kernelCopies (copies m 56 k (add64 (ePhoff m) (56 * i)))).map (l ++ ·) := by
  induction k generalizing i l with
  | zero => exact congrArg some (List.append_nil l).symm
  | succ k ih =>
    have hnext : add64 (add64 (ePhoff m) (56 * i)) 56 = add64 (ePhoff m) (56 * (i + 1)) :=
      add64_add64 _ _ _
    rw [loadSegments, loadSegment_recorder, copies, hnext]
    change (Option.bind (match copyOf m (add64 (ePhoff m) (56 * i)) with
      | none => _
      | some c => _) _).map Prod.snd = _
    cases copyOf m (add64 (ePhoff m) (56 * i)) with
    | none => exact ih (i + 1)
    | some c =>
      dsimp only [Option.toList]
      rw [List.singleton_append, kernelCopies_cons]
      by_cases h0 : c.destination = 0
      · rw [if_pos h0, if_pos h0]
        exact congrArg some (List.append_nil l).symm
      · rw [if_neg h0, if_neg h0]
        by_cases hc : c.Countable
        · rw [if_pos hc, if_pos hc]
          refine (ih (i + 1)).trans ?_
          rw [Option.map_map]
          exact congrArg (Option.map · _) (funext fun l' => List.append_assoc l [c.signed] l')
        · rw [if_neg hc, if_neg hc]
          rfl

theorem loadExecutable_eq : loadExecutable m = kernelCopies (copies m 56 (ePhnum m) (ePhoff m)) := by
  rw [loadExecutable, loadSegments_recorder, Nat.mul_zero, add64_zero (ePhoff_lt m)]
  exact Option.map_id'

/-- The loop of the boot loader with the counter `n`, not 0. -/
theorem loadelfFrom_eq (hn : n < 2 ^ 64) (hpos : 0 < n) (hfuel : n ≤ fuel) :
    loadelfFrom m fuel n ph = some (copies m 48 n ph) := by
  induction fuel generalizing n ph with
  | zero => omega
  | succ fuel ih =>
    obtain ⟨n, rfl⟩ : ∃ k, n = k + 1 := ⟨n - 1, by omega⟩
    rw [loadelfFrom, copies]
    rw [sub64_of_le (by omega) hn, Nat.add_sub_cancel]
    by_cases h : n = 0
    · subst h
      rw [if_neg (by decide), copies, List.append_nil]
    · rw [if_pos h, ih (by omega) (by omega) (by omega), Option.map_some]

/-- **The boot loader** takes the headers 48 bytes apart, `2 ^ 64` of them if there is none. -/
theorem loadelf_eq (hfuel : loopCount (ePhnum m) ≤ fuel) :
    loadelf m fuel = some (copies m 48 (loopCount (ePhnum m)) (ePhoff m)) := by
  unfold loadelf
  have hlt := ePhnum_lt m
  unfold loopCount at *
  by_cases h : ePhnum m = 0
  · rw [if_pos h] at hfuel ⊢
    obtain ⟨fuel, rfl⟩ : ∃ k, fuel = k + 1 := ⟨fuel - 1, by omega⟩
    rw [h, loadelfFrom, show 2 ^ 64 = 2 ^ 64 - 1 + 1 from rfl, copies]
    rw [show sub64 0 1 = 2 ^ 64 - 1 from rfl, if_pos (by decide),
      loadelfFrom_eq (by decide) (by decide) (by omega), Option.map_some]
  · rw [if_neg h] at hfuel ⊢
    exact loadelfFrom_eq (by omega) (by omega) hfuel

/-- More fuel changes nothing. -/
theorem loadelfFrom_mono {l : List Copy} {rcx rbx : Nat} (h : loadelfFrom m fuel rcx rbx = some l) :
    loadelfFrom m (fuel + n) rcx rbx = some l := by
  induction fuel generalizing rcx rbx l with
  | zero => cases h
  | succ fuel ih =>
    rw [show fuel + 1 + n = fuel + n + 1 by omega]
    rw [loadelfFrom] at h ⊢
    split at h
    · rename_i hc
      obtain ⟨l', hl', rfl⟩ := Option.map_eq_some_iff.1 h
      rw [if_pos hc, ih hl', Option.map_some]
    · rename_i hc
      rw [if_neg hc, h]

theorem copies_nil_iff (hph : ph < 2 ^ 64) : copies m 48 n ph = [] ↔
    ∀ i, i < n → pType m (header48 ph i) ≠ 1 := by
  induction n generalizing ph with
  | zero => simp [copies]
  | succ n ih =>
    rw [copies, List.append_eq_nil_iff, ih (add64_lt _ _), Option.toList_eq_nil_iff, copyOf_none]
    constructor
    · rintro ⟨h0, h⟩ i hi
      cases i with
      | zero =>
        rw [header48, Nat.mul_zero, add64_zero hph]
        exact h0
      | succ i =>
        have := h i (by omega)
        rwa [header48, add64_add64, show 48 + 48 * i = 48 * (i + 1) by omega] at this
    · intro h
      refine ⟨?_, fun i hi => ?_⟩
      · have := h 0 (by omega)
        rwa [header48, Nat.mul_zero, add64_zero hph] at this
      · rw [header48, add64_add64, show 48 + 48 * i = 48 * (i + 1) by omega]
        exact h (i + 1) (by omega)

/-- **The loaders agree** when the two distances find the same copies. -/
theorem loadsSame_copies : LoadsSame m ↔ kernelCopies (copies m 56 (ePhnum m) (ePhoff m)) =
    some (copies m 48 (loopCount (ePhnum m)) (ePhoff m)) := by
  rw [← loadExecutable_eq]
  constructor
  · intro h
    exact h.2 _ _ (loadelf_eq (Nat.le_refl _))
  · refine fun h => ⟨⟨_, _, loadelf_eq (Nat.le_refl _)⟩, fun fuel l hl => ?_⟩
    have := loadelfFrom_mono (n := loopCount (ePhnum m)) hl
    rw [h]
    exact (loadelf_eq (by omega)).symm.trans this

theorem kernelCopies_eq {l l' : List Copy} : kernelCopies l = some l' ↔
    (∀ c ∈ validPrefix l, c.Countable) ∧ l' = (validPrefix l).map Copy.signed := by
  unfold kernelCopies
  split
  · rename_i h
    rw [Option.some.injEq]
    exact ⟨fun he => ⟨h, he.symm⟩, fun he => he.2.symm⟩
  · rename_i h
    constructor
    · intro he
      cases he
    · intro he
      exact (h he.1).elim

/-- The first segment is the same for both where it is not for address 0 and has a size that `memcpy`
copies. -/
theorem kernelCopies_first {c : Copy} {l l' : List Copy} : kernelCopies (c :: l) = some (c :: l') ↔
    (c.destination ≠ 0 ∧ c.length < 2 ^ 31) ∧ kernelCopies l = some l' := by
  rw [kernelCopies_cons]
  constructor
  · intro h
    split at h
    · cases h
    rename_i h0
    split at h
    · obtain ⟨l1, hl, he⟩ := Option.map_eq_some_iff.1 h
      obtain ⟨hc, rfl⟩ := List.cons.inj he
      refine ⟨⟨h0, Nat.lt_of_not_le fun hge => ?_⟩, hl⟩
      rename_i hcount
      have hlarge := hcount.resolve_left (Nat.not_lt.2 hge)
      have hlen : c.signed.length = 0 := by
        unfold Copy.signed
        rw [if_neg (Nat.not_lt.2 hge)]
      rw [hc] at hlen
      omega
    · cases h
  · rintro ⟨⟨h0, hlt⟩, hl⟩
    have hc : c.Countable := .inl hlt
    have hsigned : c.signed = c := if_pos hlt
    rw [if_neg h0, if_pos hc, hl, hsigned, Option.map_some]

end

/-! ## An image -/

/-- The program header of a segment at `ph`. -/
def writePhdr (ph vaddr offset filesz : Nat) (m : Mem) : Mem :=
  (((m.store ph 4 1).store (ph + 8) 8 offset).store (ph + 16) 8 vaddr).store (ph + 32) 8 filesz

/-- An executable whose two segments go to `0x400000` and `0x600000`. -/
def twoSegments : Mem :=
  let m : Mem := Mem.store (fun _ => 0) 0 4 0x464C457F
  let m := (((m.store 0x10 2 2).store 0x12 2 62).store 0x14 4 1).store 0x18 8 0x400000
  let m := ((m.store 0x20 8 64).store 0x36 2 56).store 0x38 2 2
  writePhdr 120 0x600000 0x2000 8 (writePhdr 64 0x400000 0x1000 16 m)

end Elf64
