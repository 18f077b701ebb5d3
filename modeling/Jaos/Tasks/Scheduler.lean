import Jaos.Lib.Chain

/-!
# The scheduler (`kernel/scheduler.c`)

The tasks are records in kernel memory, linked from `task_list` on by their `next`. The loops over the
list have no bound of their own; here they run on fuel and return `none` when it does not last. The saved
registers and the page tables of a task are left out.
-/

namespace Tasks

open Lib

/-- `task`. -/
structure Task where
  pid : Nat
  status : Nat
  next : Nat

/-- The static variables, the records in memory and the addresses `kmalloc` has given out for them. -/
structure Sched where
  task : Nat → Task
  taskList : Nat
  current : Nat
  nextPid : Nat
  live : List Nat

def Sched.setTask (a : Nat) (t : Task) (s : Sched) : Sched := { s with task := upd s.task a t }

/-- `get_current_pid`. -/
def Sched.currentPid (s : Sched) : Nat := (s.task s.current).pid

/-- The loop of `add_task`: the last task from `tmp` on. -/
def lastTask : (fuel tmp : Nat) → Sched → Option Nat
  | 0, _, _ => none
  | fuel + 1, tmp, s =>
    if (s.task tmp).next ≠ 0 then lastTask fuel (s.task tmp).next s else some tmp

/-- `add_task`. -/
def addTask (fuel newTask : Nat) (s : Sched) : Option Sched :=
  let s := { s.setTask newTask { s.task newTask with pid := s.nextPid, status := 0 } with
    nextPid := s.nextPid + 1 }
  (lastTask fuel s.taskList s).map fun tmp => s.setTask tmp { s.task tmp with next := newTask }

/-- `fork`: a new record, `kmalloc`ed at `newTask`, becomes a task. -/
def fork (fuel newTask : Nat) (s : Sched) : Option Sched :=
  addTask fuel newTask
    { s.setTask newTask { s.task newTask with next := 0 } with live := newTask :: s.live }

/-- The loop of `change_task_status` from `tmp` on. -/
def changeFrom : (fuel tmp pid status : Nat) → Sched → Option Sched
  | 0, _, _, _, _ => none
  | fuel + 1, tmp, pid, status, s =>
    if tmp = 0 then some s
    else
      let s := if (s.task tmp).pid = pid then s.setTask tmp { s.task tmp with status } else s
      changeFrom fuel (s.task tmp).next pid status s

/-- `change_task_status`. -/
def changeTaskStatus (fuel pid status : Nat) (s : Sched) : Option Sched :=
  changeFrom fuel s.taskList pid status s

/-- The task after the current one, round robin. -/
def Sched.nextTask (s : Sched) : Nat :=
  if (s.task s.current).next = 0 then s.taskList else (s.task s.current).next

/-- The loop of `switch_task`. -/
def findReady : (fuel : Nat) → Sched → Option Sched
  | 0, _ => none
  | fuel + 1, s =>
    let s := { s with current := s.nextTask }
    if (s.task s.current).status ≠ 0 then findReady fuel s else some s

/-- `switch_task`: nothing before the scheduler is initialised. -/
def switchTask (fuel : Nat) (s : Sched) : Option Sched :=
  if s.current = 0 then some s else findReady fuel s

end Tasks
