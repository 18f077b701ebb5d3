import Mathlib

/-!
# The keyboard (`kernel/keyboard.c`)

The static variables that the interrupt handler and `readline` share, and the parts of these functions
that need no other process.
-/

namespace Tasks

/-- The static variables. -/
structure Keyboard where
  occupant : Nat
  newPress : Bool
  newBreak : Bool
  pressCode : BitVec 8
  breakCode : BitVec 8

/-- `keyboard_handler` before it wakes the occupant. -/
def Keyboard.handle (scancode : BitVec 8) (kb : Keyboard) : Keyboard :=
  if scancode &&& 0x80#8 ≠ 0 then { kb with newBreak := true, breakCode := scancode }
  else { kb with newPress := true, pressCode := scancode }

/-- The scancode of a key that is pressed. -/
def IsPress (scancode : BitVec 8) : Prop := scancode &&& 0x80#8 = 0

instance (scancode : BitVec 8) : Decidable (IsPress scancode) :=
  inferInstanceAs (Decidable (scancode &&& 0x80#8 = 0))

def key : List Char :=
  "##1234567890-=#\tQWERTYUIOP[]\n#ASDFGHJKL;'`#\\ZXCVBNM,./#*# ##############789-456+123#######".toList

/-- `recognize_scancode`. A press code is not negative, so the index is inside the table. -/
def recognizeScancode (scancode : BitVec 8) : Char :=
  if scancode ≠ 0 ∧ scancode.toInt < key.length then key.getD scancode.toNat '\x00' else '\x00'

end Tasks
