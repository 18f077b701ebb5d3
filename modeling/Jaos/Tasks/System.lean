import Jaos.Locking.BLocking
import Jaos.Locking.Proof.Lists
import Jaos.Tasks.Keyboard
import Jaos.Tasks.Scheduler

/-!
# Tasks, locks and the keyboard on one processor

The task at `current` takes the steps. Between any two of them the timer may interrupt it and switch, and
so may the handler of the keyboard. The steps are those of `kernel/b_locking.c` (`lock`, the check of its
waiting loop, the block behind the check, `unlock` in two halves), `fork`, `exit` and the single accesses
of `readline` and `get_char` to what they share with the handler.

The status of a task is in its record here; the statuses inside `Locking.Kernel` are not read.
-/

namespace Tasks

open Lib

/-- What `monitor_init` and `keyboard_init` register, in this order. -/
def monitorLock : Int := 0
def keyboardLock : Int := 1

/-- Where a task is, outside `lock` and `unlock`: before the call of `lock` in `readline`, after it (still
waiting or returned), before `new_press = 0`, in `get_char` before the test, before it blocks, before
`new_press = 0` and before it reads `press_code`, then before and after the call of `lock` in the `putchar`
of the loop and in the last one, before `occupant = 0` and before `unlock`. -/
inductive Point
  | user
  | calling
  | called
  | clearing
  | testing
  | blocking
  | taking
  | reading
  | echoing
  | echoed
  | ending
  | ended
  | leaving
  | unlocking
  | exited
  deriving DecidableEq

/-- A task. `line` is what `readline` has read, `yields` is set between a change of the task's own status
and the `int $0x20` behind it. -/
structure User where
  point : Point
  line : List Char
  yields : Bool

/-- `waking` is the task between the two halves of an `unlock`, which holds `master_lock`. -/
structure Sys where
  sched : Sched
  lk : Locking.Sys
  kb : Keyboard
  users : Nat → User
  waking : Option (Nat × Int)

inductive Act
  | timer
  | key (scancode : BitVec 8)
  | lock (lockid : Int) (lck : Nat)
  | check
  | block
  | unlock (lockid : Int)
  | wake
  | yield
  | fork (newTask : Nat)
  | exit
  | readline
  | read
  deriving DecidableEq

/-- The locks that are taken at a point. `keyboard_lock` is static in `keyboard.c`. -/
def Point.mayLock (lockid : Int) : Point → Prop
  | .user => lockid ≠ keyboardLock
  | .calling => lockid = keyboardLock
  | .echoing | .ending => lockid = monitorLock
  | _ => False

instance (lockid : Int) : (pt : Point) → Decidable (pt.mayLock lockid)
  | .user => inferInstanceAs (Decidable (lockid ≠ keyboardLock))
  | .calling => inferInstanceAs (Decidable (lockid = keyboardLock))
  | .echoing | .ending => inferInstanceAs (Decidable (lockid = monitorLock))
  | .called | .clearing | .testing | .blocking | .taking | .reading | .echoed | .ended | .leaving
  | .unlocking | .exited => inferInstanceAs (Decidable False)

def Point.mayUnlock (lockid : Int) : Point → Prop
  | .user => lockid ≠ keyboardLock
  | .echoed | .ended => lockid = monitorLock
  | .unlocking => lockid = keyboardLock
  | _ => False

instance (lockid : Int) : (pt : Point) → Decidable (pt.mayUnlock lockid)
  | .user => inferInstanceAs (Decidable (lockid ≠ keyboardLock))
  | .echoed | .ended => inferInstanceAs (Decidable (lockid = monitorLock))
  | .unlocking => inferInstanceAs (Decidable (lockid = keyboardLock))
  | .calling | .called | .clearing | .testing | .blocking | .taking | .reading | .echoing | .ending
  | .leaving | .exited => inferInstanceAs (Decidable False)

/-- The point once `lock` is called. -/
def Point.locking : Point → Point
  | .calling => .called
  | .echoing => .echoed
  | .ending => .ended
  | pt => pt

/-- The point behind `unlock`. -/
def Point.unlocked : Point → Point
  | .echoed => .testing
  | .ended => .leaving
  | .unlocking => .user
  | pt => pt

def Sys.goto (pid : Nat) (pt : Point) (s : Sys) : Sys :=
  { s with users := upd s.users pid { s.users pid with point := pt } }

def Sys.setYields (pid : Nat) (yields : Bool) (s : Sys) : Sys :=
  { s with users := upd s.users pid { s.users pid with yields } }

/-- The task runs its own code: not on the way to `int $0x20` and not in the middle of `unlock`. -/
def Sys.runs (s : Sys) (pid : Nat) : Prop :=
  (s.users pid).yields = false ∧ ∀ lockid, s.waking ≠ some (pid, lockid)

instance (s : Sys) (pid : Nat) : Decidable (s.runs pid) :=
  decidable_of_iff ((s.users pid).yields = false ∧ (s.waking.all fun w => w.1 != pid) = true) <| by
    unfold Sys.runs
    cases s.waking with
    | none => simp
    | some w =>
      obtain ⟨p, id⟩ := w
      simp

/-- The next step of `readline`, outside `lock` and `unlock`. -/
def read (fuel pid : Nat) (s : Sys) : Option Sys :=
  match (s.users pid).point with
  | .called =>
    some ({ s with kb.occupant := Locking.headPid keyboardLock s.lk.kernel }.goto pid .clearing)
  | .clearing => some ({ s with kb.newPress := false, kb.newBreak := false }.goto pid .testing)
  | .testing => some (s.goto pid (if s.kb.newPress then .taking else .blocking))
  | .blocking =>
    (changeTaskStatus fuel s.kb.occupant 1 s.sched).map fun sched =>
      ({ s with sched }.goto pid .taking).setYields pid true
  | .taking => some ({ s with kb.newPress := false }.goto pid .reading)
  | .reading =>
    let u := s.users pid
    let c := recognizeScancode s.kb.pressCode
    if c ≠ '\n' ∧ u.line.length < 79 then
      some { s with users := upd s.users pid { u with point := .echoing, line := u.line ++ [c] } }
    else some (s.goto pid .ending)
  | .leaving => some ({ s with kb.occupant := 0 }.goto pid .unlocking)
  | _ => none

/-- One step. -/
def act (fuel : Nat) (s : Sys) (x : Act) : Option Sys :=
  let pid := s.sched.currentPid
  let u := s.users pid
  let outside := s.runs pid ∧ (s.lk.procs pid).pc = .run
  match x with
  | .timer => (switchTask fuel s.sched).map fun sched => { s with sched }
  | .key scancode =>
    let kb := s.kb.handle scancode
    if kb.occupant ≠ 0 ∧ kb.newPress then
      ((changeTaskStatus fuel kb.occupant 0 s.sched).bind (switchTask fuel)).map fun sched =>
        { s with sched, kb }
    else some { s with kb }
  | .yield =>
    if u.yields then
      (switchTask fuel s.sched).map fun sched => { s with sched }.setYields pid false
    else none
  | .lock lockid lck =>
    if s.runs pid ∧ s.waking = none ∧ u.point.mayLock lockid then
      (Locking.act s.lk pid (.lock lockid lck)).map fun lk => { s with lk }.goto pid u.point.locking
    else none
  | .check =>
    if s.runs pid ∧ s.waking = none then
      (Locking.act s.lk pid .check).map fun lk => { s with lk }
    else none
  | .block =>
    if s.runs pid then
      (Locking.act s.lk pid .block).bind fun lk =>
        (changeTaskStatus fuel pid 1 s.sched).map fun sched => { s with sched, lk }.setYields pid true
    else none
  | .unlock lockid =>
    if s.runs pid ∧ s.waking = none ∧ u.point.mayUnlock lockid then
      (Locking.act s.lk pid (.unlock lockid)).map fun lk =>
        { s with
          lk, waking := if (Locking.unlockHead pid lockid s.lk.kernel).1 then some (pid, lockid)
            else none }.goto pid u.point.unlocked
    else none
  | .wake =>
    match s.waking with
    | some (p, lockid) =>
      if p = pid then
        (changeTaskStatus fuel (Locking.headPid lockid s.lk.kernel) 0 s.sched).map fun sched =>
          { s with sched, waking := none }
      else none
    | none => none
  | .fork newTask =>
    if outside ∧ u.point = .user ∧ newTask ≠ 0 ∧ newTask ∉ s.sched.live then
      (fork fuel newTask s.sched).map fun sched => { s with sched }
    else none
  | .exit =>
    if outside ∧ u.point = .user then
      (changeTaskStatus fuel pid 2 s.sched).map fun sched =>
        ({ s with sched }.goto pid .exited).setYields pid true
    else none
  | .readline =>
    if outside ∧ u.point = .user then
      some { s with users := upd s.users pid ⟨.calling, [], false⟩ }
    else none
  | .read => if outside then read fuel pid s else none

def Step (s : Sys) (x : Act) (s' : Sys) : Prop := ∃ fuel, act fuel s x = some s'

/-- After `keyboard_init`: the only task has the pid 0. -/
structure Init (s : Sys) : Prop where
  task : ∃ a, a ≠ 0 ∧ s.sched.task a = ⟨0, 0, 0⟩ ∧ s.sched.taskList = a ∧ s.sched.current = a ∧
    s.sched.live = [a]
  nextPid : s.sched.nextPid = 1
  locks : Locking.Init s.lk
  occupant : s.kb.occupant = 0
  users : ∀ pid, s.users pid = ⟨.user, [], false⟩
  waking : s.waking = none

/-- A state after `keyboard_init`. -/
def booted : Sys where
  sched := { task := fun _ => ⟨0, 0, 0⟩, taskList := 16, current := 16, nextPid := 1, live := [16] }
  lk :=
    { kernel := { record := fun _ => ⟨0, 0⟩, locks := fun _ => ⟨0, 0⟩, status := fun _ => 0, live := [] }
      procs := fun _ => { pc := .run, held := [], owns := fun _ => false } }
  kb := { occupant := 0, newPress := false, newBreak := false, pressCode := 0, breakCode := 0 }
  users := fun _ => ⟨.user, [], false⟩
  waking := none

theorem init_booted : Init booted where
  task := ⟨16, by decide, rfl, rfl, rfl, rfl⟩
  nextPid := rfl
  locks := ⟨fun _ => rfl, fun _ => ⟨rfl, rfl, fun _ => rfl⟩⟩
  occupant := rfl
  users := fun _ => rfl
  waking := rfl

end Tasks
