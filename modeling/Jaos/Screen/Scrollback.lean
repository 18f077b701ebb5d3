import Jaos.Screen.Monitor

/-!
# The screen is a window on an unbounded terminal

`Terminal` has as many rows as it needs and never scrolls. `Shows top s t`: the screen shows its 25
rows from `top` on, with the same cursor. `putchar` may move the cursor to row 25 of the window; then
`scroll` copies every row one up, in place and in ascending order (`scroll_eq`), and the window moves
down by one row (`Shows.scroll`). So after any sequence of characters the screen shows the last 25
rows (`shows_last_rows`).
-/

namespace Monitor

open Lib

/-- A terminal without a last row. -/
structure Terminal where
  row : Nat
  col : Nat
  cells : Nat → Nat → Nat

namespace Terminal

/-- Nothing written yet. -/
def clear : Terminal := ⟨0, 0, fun _ _ => blank⟩

/-- Column 80 is the start of the next row. -/
def wrap (t : Terminal) : Terminal := if 80 ≤ t.col then { t with row := t.row + 1, col := 0 } else t

def move (c : BitVec 8) (t : Terminal) : Terminal :=
  if c = 0x08 ∧ t.col ≠ 0 then { t with col := t.col - 1 }
  else if c = 0x09 then { t with col := (t.col + 8) / 8 * 8 }
  else if c = 0x0D then { t with col := 0 }
  else if c = 0x0A then { t with row := t.row + 1, col := 0 }
  else if 0x20 ≤ c.toInt then
    { t with cells := upd t.cells t.row (upd (t.cells t.row) t.col (cell c.toNat)), col := t.col + 1 }
  else t

/-- A character written. -/
def put (t : Terminal) (c : BitVec 8) : Terminal := (t.move c).wrap

/-- The first of the last 25 rows. -/
def top (t : Terminal) : Nat := t.row - 24

end Terminal

/-- The screen shows the rows of the terminal from `top` on. Nothing is written below it, or below
the cursor. -/
structure Shows (top : Nat) (s : Screen) (t : Terminal) : Prop where
  top_le : top ≤ t.row
  x : s.cursorX = t.col
  y : s.cursorY = t.row - top
  cells : ∀ x y : Nat, x < 80 → y < 25 → s.videoMemory (y * 80 + x) = t.cells (top + y) x
  below : ∀ r x : Nat, t.row < r ∨ top + 25 ≤ r → t.cells r x = blank

section
variable {top : Nat} {s : Screen} {t : Terminal}

theorem int8_of_small {n : Int} (h1 : -128 ≤ n) (h2 : n < 128) : int8 n = n :=
  Int.bmod_eq_of_le (by omega) (by omega)

/-! ## Loops over the cells -/

/-- The cells from `i` up to `j` written. -/
def Screen.written (s : Screen) (i j : Nat) (g : Int → Nat) : Screen :=
  { s with videoMemory := fun x => if (i : Int) ≤ x ∧ x < j then g x else s.videoMemory x }

/-- **A loop of writes** in ascending order, where the value for a cell depends on cells that are not
written yet. -/
theorem poke_loop {k i : Nat} {v : Nat → Screen → Nat} {g : Int → Nat} (hk : i + k ≤ 80 * 25)
    (hv : ∀ (j : Nat) s', (∀ x : Int, (j : Int) ≤ x → s'.videoMemory x = s.videoMemory x) → v j s' = g j) :
    loop (fun i s => poke i (v i s) s) k i s = some (s.written i (i + k) g) := by
  have hbody : ∀ j s', i ≤ j → j < i + k → s' = s.written i j g →
      ∃ s'', poke j (v j s') s' = some s'' ∧ s'' = s.written i (j + 1) g := by
    rintro j - h1 h2 rfl
    refine ⟨_, if_pos (by omega), ?_⟩
    unfold Screen.written
    congr 1
    funext x
    rw [hv j _ fun x hx => if_neg (by omega)]
    by_cases hx : x = j
    · rw [hx, upd_same, if_pos (by omega)]
    · rw [upd_ne _ _ hx]
      dsimp only
      congr 1
      simp only [eq_iff_iff]
      omega
  have hstart : s = s.written i i g := by
    unfold Screen.written
    rw [show (fun x => if (i : Int) ≤ x ∧ x < i then g x else s.videoMemory x) = s.videoMemory from
      funext fun x => if_neg (by omega)]
  obtain ⟨s', hs', rfl⟩ := loop_total (P := fun j s' => s' = s.written i j g) hbody hstart
  exact hs'

/-- **`scroll`** moves every row one up. -/
theorem scroll_eq (h : 25 ≤ s.cursorY) : scroll s = some { s with
    cursorY := 24
    videoMemory := fun x => if 1920 ≤ x ∧ x < 2000 then blank
      else if 0 ≤ x ∧ x < 1920 then s.videoMemory (x + 80) else s.videoMemory x } := by
  unfold scroll
  rw [if_pos h, poke_loop (g := fun x => s.videoMemory (x + 80)) (by decide)
    (fun j s' hs' => hs' _ (by omega)), Option.bind_some,
    poke_loop (v := fun _ _ => blank) (g := fun _ => blank) (by decide) fun _ _ _ => rfl]
  rfl

@[simp] theorem outb_videoMemory (port value : Nat) :
    (outb port value s).videoMemory = s.videoMemory := by
  unfold outb
  split
  · rfl
  · split <;> rfl

@[simp] theorem outb_cursorX (port value : Nat) : (outb port value s).cursorX = s.cursorX := by
  unfold outb
  split
  · rfl
  · split <;> rfl

@[simp] theorem outb_cursorY (port value : Nat) : (outb port value s).cursorY = s.cursorY := by
  unfold outb
  split
  · rfl
  · split <;> rfl

theorem Shows.moveCursor (h : Shows top s t) : Shows top (moveCursor s) t := by
  unfold Monitor.moveCursor
  exact ⟨h.top_le, by simpa using h.x, by simpa using h.y, by simpa using h.cells, h.below⟩

/-! ## One character -/

/-- **The window moves** when the cursor has left it. -/
theorem Shows.scroll {top' : Nat} (h : Shows top s t) (hrow : t.row ≤ top + 25)
    (htop : top' = if t.row = top + 25 then top + 1 else top) :
    ∃ s', scroll s = some s' ∧ Shows top' s' t := by
  have hy := h.y
  by_cases hr : t.row = top + 25
  · rw [if_pos hr] at htop
    subst htop
    rw [scroll_eq (by omega)]
    refine ⟨_, rfl, by omega, h.x, by dsimp only; omega, fun x y hx hy => ?_,
      fun r x hr => h.below r x (by omega)⟩
    dsimp only
    -- the last row of the screen is new, the others come from one row below
    by_cases hlast : y = 24
    · rw [if_pos (by omega), h.below _ _ (.inr (by omega))]
    · have hnext := h.cells x (y + 1) hx (by omega)
      rw [show top + (y + 1) = top + 1 + y by omega] at hnext
      rw [if_neg (by omega), if_pos (by omega), ← hnext]
      congr 1
      omega
  · rw [if_neg hr] at htop
    subst htop
    exact ⟨s, if_neg (by omega), h⟩

/-- The `if`s on the character. The cursor may end up in column 80 or below the screen. -/
theorem Shows.putcharAt (h : Shows top s t) (hcol : t.col < 80) (hrow : t.row ≤ top + 24)
    (c : BitVec 8) : ∃ s', putcharAt c s = some s' ∧ Shows top s' (t.move c) ∧
      (t.move c).col ≤ 80 ∧ (t.move c).row ≤ top + 25 ∧
      ((t.move c).row = t.row ∨ (t.move c).col = 0 ∧ (t.move c).row = t.row + 1) := by
  have hx := h.x
  have hy := h.y
  have hle := h.top_le
  unfold Monitor.putcharAt Terminal.move
  by_cases h8 : c = 0x08 ∧ t.col ≠ 0
  · have h8' : c = 0x08 ∧ s.cursorX ≠ 0 := ⟨h8.1, by omega⟩
    have := h8.2
    rw [if_pos h8', if_pos h8]
    refine ⟨_, rfl, ⟨hle, ?_, hy, h.cells, h.below⟩, by dsimp only; omega, by dsimp only; omega, .inl rfl⟩
    rw [int8_of_small (by omega) (by omega)]
    dsimp only
    omega
  rw [if_neg h8, if_neg (by intro hc; exact h8 ⟨hc.1, fun h0 => hc.2 (by omega)⟩)]
  by_cases h9 : c = 0x09
  · rw [if_pos h9, if_pos h9]
    refine ⟨_, rfl, ⟨hle, ?_, hy, h.cells, h.below⟩, by dsimp only; omega, by dsimp only; omega, .inl rfl⟩
    rw [int8_of_small (by omega) (by omega)]
    dsimp only
    omega
  rw [if_neg h9, if_neg h9]
  by_cases hd : c = 0x0D
  · rw [if_pos hd, if_pos hd]
    exact ⟨_, rfl, ⟨hle, rfl, hy, h.cells, h.below⟩, by dsimp only; omega, by dsimp only; omega, .inl rfl⟩
  rw [if_neg hd, if_neg hd]
  by_cases ha : c = 0x0A
  · rw [if_pos ha, if_pos ha]
    refine ⟨_, rfl, ⟨by dsimp only; omega, rfl, ?_, h.cells, fun r x hr => h.below r x ?_⟩,
      by dsimp only; omega, by dsimp only; omega, .inr ⟨rfl, rfl⟩⟩
    · rw [int8_of_small (by omega) (by omega)]
      dsimp only
      omega
    · dsimp only at hr
      omega
  rw [if_neg ha, if_neg ha]
  by_cases hp : 0x20 ≤ c.toInt
  · rw [if_pos hp, if_pos hp, poke, if_pos (by omega), Option.map_some]
    refine ⟨_, rfl, ⟨hle, ?_, hy, fun x y hxlt hylt => ?_, fun r x hr => ?_⟩,
      by dsimp only; omega, by dsimp only; omega, .inl rfl⟩
    · dsimp only
      rw [int8_of_small (by omega) (by omega)]
      omega
    · dsimp only
      -- the cell under the cursor, another cell of its row, another row
      by_cases hyr : top + y = t.row
      · rw [hyr, upd_same]
        by_cases hxc : x = t.col
        · rw [hxc, upd_same, show (y : Int) * 80 + t.col = s.cursorY * 80 + s.cursorX by omega, upd_same]
        · rw [upd_ne _ _ hxc, upd_ne _ _ (by omega), h.cells x y hxlt hylt, hyr]
      · rw [upd_ne _ _ hyr, upd_ne _ _ (by omega), h.cells x y hxlt hylt]
    · dsimp only at hr ⊢
      rw [upd_ne _ _ (by omega)]
      exact h.below r x hr
  · rw [if_neg hp, if_neg hp]
    exact ⟨s, rfl, h, by omega, by omega, .inl rfl⟩

/-- **`putchar`** keeps the screen a window on the last rows. -/
theorem Shows.putchar (h : Shows t.top s t) (hcol : t.col < 80) (c : BitVec 8) :
    ∃ s', putchar c s = some s' ∧ Shows (t.put c).top s' (t.put c) ∧ (t.put c).col < 80 := by
  unfold Terminal.top at *
  obtain ⟨s1, h1, hs1, hcol1, hrow1, hmove⟩ := h.putcharAt hcol (by omega) c
  unfold Monitor.putchar Terminal.put Terminal.wrap
  rw [h1, Option.bind_some]
  dsimp only
  have hx := hs1.x
  have hy := hs1.y
  generalize t.move c = t1 at *
  by_cases hw : 80 ≤ t1.col
  · rw [if_pos hw, if_pos (by omega)]
    have hs2 : Shows (t.row - 24) { s1 with cursorX := 0, cursorY := int8 (s1.cursorY + 1) }
        { t1 with row := t1.row + 1, col := 0 } := by
      refine ⟨by dsimp only; omega, rfl, ?_, hs1.cells, fun r x hr => hs1.below r x ?_⟩
      · rw [int8_of_small (by omega) (by omega)]
        dsimp only
        omega
      · dsimp only at hr
        omega
    obtain ⟨s3, h3, hs3⟩ := @Shows.scroll _ _ _ (t1.row + 1 - 24) hs2 (by dsimp only; omega)
      (by dsimp only; split <;> omega)
    rw [h3, Option.map_some]
    exact ⟨_, rfl, hs3.moveCursor, show 0 < 80 by decide⟩
  · rw [if_neg hw, if_neg (by omega)]
    obtain ⟨s3, h3, hs3⟩ := @Shows.scroll _ _ _ (t1.row - 24) hs1 hrow1 (by split <;> omega)
    rw [h3, Option.map_some]
    exact ⟨_, rfl, hs3.moveCursor, by omega⟩

/-! ## Runs -/

theorem shows_clear (s : Screen) :
    ∃ s', clearScreen s = some s' ∧ Shows Terminal.clear.top s' .clear := by
  unfold clearScreen
  rw [poke_loop (v := fun _ _ => blank) (g := fun _ => blank) (by decide) fun _ _ _ => rfl,
    Option.map_some]
  refine ⟨_, rfl, Shows.moveCursor ⟨Nat.le_refl _, rfl, rfl, fun x y hx hy => ?_, fun _ _ _ => rfl⟩⟩
  unfold Screen.written
  dsimp only
  rw [if_pos (by omega)]
  rfl

theorem Shows.putAll (h : Shows t.top s t) (hcol : t.col < 80) (cs : List (BitVec 8)) :
    ∃ s', putAll cs s = some s' ∧ Shows (cs.foldl .put t).top s' (cs.foldl .put t) ∧
      (cs.foldl .put t).col < 80 := by
  induction cs generalizing s t with
  | nil => exact ⟨s, rfl, h, hcol⟩
  | cons c cs ih =>
    obtain ⟨s1, h1, hs1, hcol1⟩ := h.putchar hcol c
    obtain ⟨s', hs', h', hcol'⟩ := ih hs1 hcol1
    exact ⟨s', by rw [Monitor.putAll, h1, Option.bind_some, hs'], h', hcol'⟩

/-- **The screen shows the last 25 rows** of the terminal, from any screen before `clear_screen` and
after any sequence of characters: no write leaves the screen, the cursor is on it, and cell by cell it
is the window that ends at the row of the cursor, or the first 25 rows. -/
theorem shows_last_rows (s : Screen) (cs : List (BitVec 8)) :
    ∃ s', (clearScreen s).bind (putAll cs) = some s' ∧
      (0 ≤ s'.cursorX ∧ s'.cursorX < 80 ∧ 0 ≤ s'.cursorY ∧ s'.cursorY < 25) ∧
      s'.cursorX = (cs.foldl Terminal.put .clear).col ∧
      s'.cursorY + (cs.foldl Terminal.put .clear).top = (cs.foldl Terminal.put .clear).row ∧
      ∀ x y : Nat, x < 80 → y < 25 → s'.videoMemory (y * 80 + x) =
        (cs.foldl Terminal.put .clear).cells ((cs.foldl Terminal.put .clear).top + y) x := by
  obtain ⟨s1, h1, hs1⟩ := shows_clear s
  obtain ⟨s', hs', h, hcol⟩ := hs1.putAll (by decide) cs
  have hx := h.x
  have hy := h.y
  have hle := h.top_le
  have htop : (cs.foldl Terminal.put .clear).top = (cs.foldl Terminal.put .clear).row - 24 := rfl
  refine ⟨s', by rw [h1, Option.bind_some, hs'], ⟨?_, ?_, ?_, ?_⟩, hx, ?_, h.cells⟩ <;> omega

end

end Monitor
