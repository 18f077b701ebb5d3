import Jaos.Lib.Chain
import Jaos.Lib.Loop

/-!
# The text screen (`kernel/monitor.c`)

`putchar`, `scroll`, `move_cursor` and `clear_screen` as the C code computes them. The cursor is a
pair of `int8_t`, a cell is 16 bits: the character and its attribute byte. A write outside the 80 by
25 cells of the screen is `none`. `monitor_lock` is left out: one process writes.
-/

namespace Monitor

open Lib

def vgaIndexPort : Nat := 0x3D4
def vgaDataPort : Nat := 0x3D5
def cursorPositionHigh : Nat := 0xE
def cursorPositionLow : Nat := 0xF
def black : Nat := 0
def white : Nat := 15

/-- `ATTR_BYTE`. -/
def attrByte (bg fg : Nat) : Nat := bg <<< 4 ||| fg &&& 0x0F

/-- The character `c` with the attribute byte that all functions use. -/
def cell (c : Nat) : Nat := c ||| attrByte black white <<< 8

def blank : Nat := cell 0x20

/-- Conversion to `int8_t`. -/
def int8 (n : Int) : Int := n.bmod 256

/-- The cursor, video memory and the registers behind the VGA ports. -/
structure Screen where
  cursorX : Int
  cursorY : Int
  videoMemory : Int → Nat
  vgaIndex : Nat
  vgaData : Nat → Nat

/-- `video_memory[i] = v`. -/
def poke (i : Int) (v : Nat) (s : Screen) : Option Screen :=
  if 0 ≤ i ∧ i < 80 * 25 then some { s with videoMemory := upd s.videoMemory i v } else none

/-- `outb`: the index port selects the register that the data port writes. -/
def outb (port value : Nat) (s : Screen) : Screen :=
  if port = vgaIndexPort then { s with vgaIndex := value % 256 }
  else if port = vgaDataPort then { s with vgaData := upd s.vgaData s.vgaIndex (value % 256) }
  else s

/-- `move_cursor`. -/
def moveCursor (s : Screen) : Screen :=
  let cursorLocation := (s.cursorY * 80 + s.cursorX).toNat
  let s := outb vgaIndexPort cursorPositionHigh s
  let s := outb vgaDataPort (cursorLocation >>> 8) s
  let s := outb vgaIndexPort cursorPositionLow s
  outb vgaDataPort cursorLocation s

/-- `scroll`. -/
def scroll (s : Screen) : Option Screen :=
  if 25 ≤ s.cursorY then
    (loop (fun i s => poke i (s.videoMemory (i + 80)) s) (80 * 24) 0 s).bind fun s =>
      (loop (fun i => poke i blank) 80 (24 * 80) s).map fun s => { s with cursorY := 24 }
  else some s

/-- The `if`s of `putchar` on the character. -/
def putcharAt (c : BitVec 8) (s : Screen) : Option Screen :=
  if c = 0x08 ∧ s.cursorX ≠ 0 then some { s with cursorX := int8 (s.cursorX - 1) }
  else if c = 0x09 then some { s with cursorX := int8 ((s.cursorX + 8) / 8 * 8) }
  else if c = 0x0D then some { s with cursorX := 0 }
  else if c = 0x0A then some { s with cursorX := 0, cursorY := int8 (s.cursorY + 1) }
  else if 0x20 ≤ c.toInt then
    (poke (s.cursorY * 80 + s.cursorX) (cell c.toNat) s).map fun s =>
      { s with cursorX := int8 (s.cursorX + 1) }
  else some s

/-- `putchar`; `char` is signed. -/
def putchar (c : BitVec 8) (s : Screen) : Option Screen :=
  (putcharAt c s).bind fun s =>
    let s := if 80 ≤ s.cursorX then { s with cursorX := 0, cursorY := int8 (s.cursorY + 1) } else s
    (scroll s).map moveCursor

/-- `clear_screen`. -/
def clearScreen (s : Screen) : Option Screen :=
  (loop (fun i => poke i blank) (80 * 25) 0 s).map fun s =>
    moveCursor { s with cursorX := 0, cursorY := 0 }

/-- A sequence of calls of `putchar`. -/
def putAll : List (BitVec 8) → Screen → Option Screen
  | [], s => some s
  | c :: cs, s => (putchar c s).bind (putAll cs)

end Monitor
