import Jaos.Lib.Chain

/-!
# The line that `readline` returns (`kernel/keyboard.c`)

`readline` as a function of the characters that `get_char` delivers and of what the buffer held before.
The buffer remembers the indices at which it was read or written. The last newline is written only if
the cell at the end of the line holds none, so what an earlier line left there decides whether the
newline stays or is overwritten by the NUL (`readline_eq`, `readline_iff`).
-/

namespace Tasks

open Lib

/-- A buffer, with the indices touched so far. -/
structure Buffer where
  cells : Nat → Char
  touched : List Nat

/-- `buffer[i]`. -/
def Buffer.get (i : Nat) (b : Buffer) : Char × Buffer := (b.cells i, { b with touched := i :: b.touched })

/-- `buffer[i] = c`. -/
def Buffer.set (i : Nat) (c : Char) (b : Buffer) : Buffer := ⟨upd b.cells i c, i :: b.touched⟩

/-- The loop of `readline`; `k` characters have been delivered. -/
def readLoop (key : Nat → Char) : (fuel k i : Nat) → Buffer → Option (Nat × Buffer)
  | 0, _, _, _ => none
  | fuel + 1, k, i, b =>
    let c := key k
    if c ≠ '\n' ∧ i < 79 then readLoop key fuel (k + 1) (i + 1) (b.set i c) else some (i, b)

/-- `readline`: the buffer that it leaves, where `get_char` delivers `key 0`, `key 1`, .. -/
def readline (fuel : Nat) (key cells : Nat → Char) : Option Buffer :=
  (readLoop key fuel 0 0 ⟨cells, []⟩).map fun r =>
    let i := r.1
    let x := r.2.get i
    let y := if x.1 ≠ '\n' then (i + 1, x.2.set i '\n') else (i, x.2)
    y.2.set y.1 '\x00'

/-- The number of characters of the line, where `key n` is the first newline. -/
def lineLength (n : Nat) : Nat := min n 79

/-- **The line is there**: its characters, a newline, a NUL, and nothing else was touched. -/
structure IsLine (key : Nat → Char) (n : Nat) (b : Buffer) : Prop where
  chars : ∀ i, i < lineLength n → b.cells i = key i
  newline : b.cells (lineLength n) = '\n'
  nul : b.cells (lineLength n + 1) = '\x00'
  touched : ∀ i ∈ b.touched, i ≤ 80

/-- `readline` returns with the line in the buffer. -/
def ReadsLine (key : Nat → Char) (n : Nat) (cells : Nat → Char) : Prop :=
  ∃ fuel b, readline fuel key cells = some b ∧ IsLine key n b

/-- `readline` returns the same string from both buffers. -/
def SameLine (key : Nat → Char) (n : Nat) (cells cells' : Nat → Char) : Prop :=
  ∃ fuel b b', readline fuel key cells = some b ∧ readline fuel key cells' = some b' ∧
    ∀ i, i ≤ lineLength n + 1 → b.cells i = b'.cells i

section
variable {key cells cells' : Nat → Char} {n fuel i : Nat} {b : Buffer}

/-- The buffer with the characters from `i` on. -/
def typed (key : Nat → Char) : (k i : Nat) → Buffer → Buffer
  | 0, _, b => b
  | k + 1, i, b => typed key k (i + 1) (b.set i (key i))

theorem typed_cells {k x : Nat} : (typed key k i b).cells x =
    if i ≤ x ∧ x < i + k then key x else b.cells x := by
  induction k generalizing i b with
  | zero => rw [if_neg (by omega), typed]
  | succ k ih =>
    rw [typed, ih]
    by_cases hx : x = i
    · subst hx
      rw [if_neg (by omega), if_pos (by omega)]
      exact upd_same _ _ _
    · have hset : (b.set i (key i)).cells x = b.cells x := upd_ne _ _ hx
      rw [hset]
      by_cases h : i + 1 ≤ x ∧ x < i + 1 + k
      · rw [if_pos h, if_pos (by omega)]
      · rw [if_neg h, if_neg (by omega)]

theorem typed_touched {k x : Nat} (hx : x ∈ (typed key k i b).touched) :
    i ≤ x ∧ x < i + k ∨ x ∈ b.touched := by
  induction k generalizing i b with
  | zero => exact .inr hx
  | succ k ih =>
    rcases ih hx with h | h
    · exact .inl (by omega)
    · rcases List.mem_cons.1 h with rfl | h
      · exact .inl (by omega)
      · exact .inr h

/-- **The loop** stores the characters of the line and stops at its end. -/
theorem readLoop_eq (hnl : key n = '\n') (hfirst : ∀ i, i < n → key i ≠ '\n') (hi : i ≤ lineLength n)
    (hfuel : lineLength n - i < fuel) : readLoop key fuel i i b =
      some (lineLength n, typed key (lineLength n - i) i b) := by
  unfold lineLength at *
  induction fuel generalizing i b with
  | zero => omega
  | succ fuel ih =>
    rw [readLoop]
    by_cases hlt : i < min n 79
    · rw [if_pos ⟨hfirst i (by omega), by omega⟩, ih (by omega) (by omega),
        show min n 79 - i = min n 79 - (i + 1) + 1 by omega]
      rfl
    · obtain rfl : i = min n 79 := by omega
      rw [if_neg, Nat.sub_self]
      · rfl
      · rintro ⟨hne, h79⟩
        have : min n 79 = n := by omega
        rw [this] at hne
        exact hne hnl

/-- **What `readline` leaves** in the buffer. -/
theorem readline_eq (cells : Nat → Char) (hnl : key n = '\n') (hfirst : ∀ i, i < n → key i ≠ '\n')
    (hfuel : 80 ≤ fuel) :
    ∃ b, readline fuel key cells = some b ∧ (∀ i ∈ b.touched, i ≤ 80) ∧ ∀ i, b.cells i =
      if i < lineLength n then key i
      else if cells (lineLength n) = '\n' then
        if i = lineLength n then '\x00' else cells i
      else if i = lineLength n then '\n'
      else if i = lineLength n + 1 then '\x00' else cells i := by
  have hlen : lineLength n ≤ 79 := Nat.min_le_right _ _
  have hcell : ∀ x, (typed key (lineLength n) 0 ⟨cells, []⟩).cells x =
      if x < lineLength n then key x else cells x := fun x => by
    rw [typed_cells]
    simp
  have hend : (typed key (lineLength n) 0 ⟨cells, []⟩).cells (lineLength n) = cells (lineLength n) := by
    rw [hcell, if_neg (Nat.lt_irrefl _)]
  have htouched : ∀ x ∈ (typed key (lineLength n) 0 ⟨cells, []⟩).touched, x ≤ 80 := fun x hx => by
    rcases typed_touched hx with h | h
    · omega
    · cases h
  unfold readline
  rw [readLoop_eq hnl hfirst (Nat.zero_le _) (by omega), Option.map_some, Nat.sub_zero]
  dsimp only [Buffer.get]
  rw [hend]
  by_cases hstale : cells (lineLength n) = '\n'
  · -- the newline of an earlier line
    rw [if_neg (not_not_intro hstale)]
    refine ⟨_, rfl, ?_, fun i => ?_⟩
    · simp only [Buffer.set, List.mem_cons]
      rintro x (rfl | rfl | hx)
      · omega
      · omega
      · exact htouched x hx
    · rw [if_pos hstale]
      by_cases hi : i = lineLength n
      · subst hi
        rw [if_neg (Nat.lt_irrefl _), if_pos rfl]
        exact upd_same _ _ _
      · rw [if_neg hi]
        exact (upd_ne _ _ hi).trans (hcell i)
  · rw [if_pos hstale]
    refine ⟨_, rfl, ?_, fun i => ?_⟩
    · simp only [Buffer.set, List.mem_cons]
      rintro x (rfl | rfl | rfl | hx)
      · omega
      · omega
      · omega
      · exact htouched x hx
    · rw [if_neg hstale]
      by_cases hi : i = lineLength n
      · subst hi
        rw [if_neg (Nat.lt_irrefl _), if_pos rfl]
        exact (upd_ne _ _ (by omega)).trans (upd_same _ _ _)
      · by_cases hi' : i = lineLength n + 1
        · subst hi'
          rw [if_neg (by omega), if_neg hi, if_pos rfl]
          exact upd_same _ _ _
        · rw [if_neg hi, if_neg hi']
          exact ((upd_ne _ _ hi').trans (upd_ne _ _ hi)).trans (hcell i)

/-- More fuel does not change the result. -/
theorem readLoop_mono {fuel' k : Nat} {r : Nat × Buffer} (h : readLoop key fuel k i b = some r)
    (hle : fuel ≤ fuel') : readLoop key fuel' k i b = some r := by
  induction fuel generalizing fuel' k i b with
  | zero => cases h
  | succ fuel ih =>
    obtain ⟨f, rfl⟩ : ∃ f, fuel' = f + 1 := ⟨fuel' - 1, by omega⟩
    rw [readLoop] at h ⊢
    split
    · rename_i hc
      rw [if_pos hc] at h
      exact ih h (by omega)
    · rename_i hc
      rwa [if_neg hc] at h

/-- The buffer does not depend on the fuel. -/
theorem readline_unique {fuel' : Nat} {b' : Buffer} (h : readline fuel key cells = some b)
    (h' : readline fuel' key cells = some b') : b = b' := by
  obtain ⟨r, hr, rfl⟩ := Option.map_eq_some_iff.1 h
  obtain ⟨r', hr', rfl⟩ := Option.map_eq_some_iff.1 h'
  have h1 := readLoop_mono hr (Nat.le_max_left fuel fuel')
  rw [readLoop_mono hr' (Nat.le_max_right fuel fuel')] at h1
  cases h1
  rfl

/-- **The line is read** exactly if the cell behind its characters held no newline. -/
theorem readsLine_iff (hnl : key n = '\n') (hfirst : ∀ i, i < n → key i ≠ '\n') :
    ReadsLine key n cells ↔ cells (lineLength n) ≠ '\n' := by
  obtain ⟨b, hrun, htouched, hcells⟩ := readline_eq cells hnl hfirst (Nat.le_refl 80)
  constructor
  · rintro ⟨fuel, b', hrun', hline⟩ hstale
    obtain rfl := readline_unique hrun hrun'
    have h := hline.newline
    rw [hcells, if_neg (Nat.lt_irrefl _), if_pos hstale, if_pos rfl] at h
    revert h
    decide
  · refine fun hclear => ⟨80, b, hrun, fun i hi => ?_, ?_, ?_, htouched⟩
    · rw [hcells, if_pos hi]
    · rw [hcells, if_neg (Nat.lt_irrefl _), if_neg hclear, if_pos rfl]
    · rw [hcells, if_neg (by omega), if_neg hclear, if_neg (by omega), if_pos rfl]

/-- **`readline` depends on what was typed only**, and returns the line, from two buffers neither of
which holds a newline behind the characters of the line; and only from such. -/
theorem readline_iff (hnl : key n = '\n') (hfirst : ∀ i, i < n → key i ≠ '\n') :
    ReadsLine key n cells ∧ ReadsLine key n cells' ∧ SameLine key n cells cells' ↔
      cells (lineLength n) ≠ '\n' ∧ cells' (lineLength n) ≠ '\n' := by
  rw [readsLine_iff hnl hfirst, readsLine_iff hnl hfirst]
  refine ⟨fun h => ⟨h.1, h.2.1⟩, fun h => ⟨h.1, h.2, ?_⟩⟩
  obtain ⟨b, hrun, -, hcells⟩ := readline_eq cells hnl hfirst (Nat.le_refl 80)
  obtain ⟨b', hrun', -, hcells'⟩ := readline_eq cells' hnl hfirst (Nat.le_refl 80)
  refine ⟨80, b, b', hrun, hrun', fun i hi => ?_⟩
  rw [hcells, hcells', if_neg h.1, if_neg h.2]
  by_cases hlt : i < lineLength n
  · rw [if_pos hlt, if_pos hlt]
  · obtain rfl | rfl : i = lineLength n ∨ i = lineLength n + 1 := by omega
    · simp
    · simp

end

/-- The keys of a line. -/
def keys (str : String) (i : Nat) : Char := str.toList.getD i '\n'

/-- A cleared buffer, and one with an old line of another length. -/
theorem readline_iff_cleared : ReadsLine (keys "LS\n") 2 (fun _ => '\x00') ∧
    ReadsLine (keys "LS\n") 2 (keys "EXIT\n") ∧
      SameLine (keys "LS\n") 2 (fun _ => '\x00') (keys "EXIT\n") :=
  (readline_iff (by decide) (by decide)).2 ⟨by decide, by decide⟩

/-- **The same line twice.** The buffer of the shell holds a line of two characters and its newline.
When two characters are typed again, the newline is taken for the one of this line, and the NUL
overwrites it. -/
theorem newline_lost : ∃ b b' : Buffer,
    readline 80 (keys "LS\n") (fun _ => '\x00') = some b ∧
      readline 80 (keys "LS\n") b.cells = some b' ∧ b'.cells 2 = '\x00' ∧
      ¬ ReadsLine (keys "LS\n") 2 b.cells := by
  refine ⟨_, _, rfl, rfl, by decide, ?_⟩
  rw [readsLine_iff (by decide) (by decide)]
  decide

end Tasks
