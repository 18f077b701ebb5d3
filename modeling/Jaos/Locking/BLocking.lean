import Jaos.Lib.Chain
import Jaos.Lib.Run

/-!
# Locks (`kernel/b_locking.c`)

A lock is a queue of records in kernel memory; its owner is the process whose record is the head.
`lock`, the check of the waiting loop and `unlock` are the sections under `master_lock`, one step
each. A process inside the loop alternates between the check and `change_task_status(self, 1)`.

`kmalloc` returns an address that no live record has, the argument `lck`. The array of locks is a
function of the lock id and not bounded by `LOCKING_MAX`, as in C.
-/

namespace Locking

open Lib

/-- `struct lock`. -/
structure Lock where
  pid : Nat
  next : Nat

/-- `lock_queue`. -/
structure LockQueue where
  head : Nat
  tail : Nat

/-- What the functions share: the records in memory, the queues, the status of the tasks and the
addresses of the records that are allocated. -/
structure Kernel where
  record : Nat → Lock
  locks : Int → LockQueue
  status : Nat → Nat
  live : List Nat

/-- `change_task_status`. -/
def changeTaskStatus (pid status : Nat) (k : Kernel) : Kernel :=
  { k with status := upd k.status pid status }

/-- A new record of the process. -/
def newLock (self lck : Nat) (k : Kernel) : Kernel :=
  { k with record := upd k.record lck ⟨self, 0⟩, live := lck :: k.live }

def setQueue (lockid : Int) (q : LockQueue) (k : Kernel) : Kernel :=
  { k with locks := upd k.locks lockid q }

def setNext (a next : Nat) (k : Kernel) : Kernel :=
  { k with record := upd k.record a { k.record a with next } }

def kfree (a : Nat) (k : Kernel) : Kernel := { k with live := k.live.erase a }

/-- The pid at the head of the queue; the record at address 0 if it is empty. -/
def headPid (lockid : Int) (k : Kernel) : Nat := (k.record (k.locks lockid).head).pid

/-- `lock` up to the waiting loop, and whether it returns before that. -/
def lock (self : Nat) (lockid : Int) (lck : Nat) (k : Kernel) : Bool × Kernel :=
  if lockid = -1 then (true, k)
  else if (k.locks lockid).head = 0 then
    (true, setQueue lockid ⟨lck, lck⟩ (newLock self lck k))
  else if headPid lockid k = self then (true, k)
  else
    let k := newLock self lck k
    let k := setNext (k.locks lockid).tail lck k
    (false, setQueue lockid ⟨(k.locks lockid).head, lck⟩ k)

/-- `unlock`. -/
def unlock (self : Nat) (lockid : Int) (k : Kernel) : Kernel :=
  if lockid = -1 then k
  else
    let tmp := (k.locks lockid).head
    if tmp = 0 then k
    else if tmp = (k.locks lockid).tail then kfree tmp (setQueue lockid ⟨0, 0⟩ k)
    else
      let k :=
        if headPid lockid k = self then
          kfree tmp (setQueue lockid ⟨(k.record tmp).next, (k.locks lockid).tail⟩ k)
        else k
      changeTaskStatus (headPid lockid k) 0 k

/-! ## Processes -/

/-- Where a process is: outside `lock`, before the check of the waiting loop, or after it. -/
inductive Pc
  | run
  | check (lockid : Int)
  | block (lockid : Int)
  deriving DecidableEq

/-- A process. `held` lists the sections it is in, the innermost first: the ids for which `lock`
returned and the matching `unlock` has not started. `owns` is set when `lock` returns and cleared by
the next `unlock` of the id. -/
structure Proc where
  pc : Pc
  held : List Int
  owns : Int → Bool

structure Sys where
  kernel : Kernel
  procs : Nat → Proc

inductive Act
  | lock (lockid : Int) (lck : Nat)
  | check
  | block
  | unlock (lockid : Int)

/-- `lock` has returned. -/
def Proc.enter (lockid : Int) (p : Proc) : Proc :=
  { pc := .run, held := lockid :: p.held, owns := upd p.owns lockid true }

/-- `unlock` of the innermost section. -/
def Proc.leave (lockid : Int) (p : Proc) : Proc :=
  { p with held := p.held.tail, owns := upd p.owns lockid false }

/-- One step of the process `pid`. Sections are properly bracketed: only the innermost one is
unlocked. -/
def act (s : Sys) (pid : Nat) : Act → Option Sys
  | .lock lockid lck =>
    if (s.procs pid).pc = .run ∧ lck ≠ 0 ∧ lck ∉ s.kernel.live then
      let r := lock pid lockid lck s.kernel
      let p := s.procs pid
      some ⟨r.2, upd s.procs pid (if r.1 then p.enter lockid else { p with pc := .check lockid })⟩
    else none
  | .check =>
    match (s.procs pid).pc with
    | .check lockid =>
      let p := s.procs pid
      some ⟨s.kernel, upd s.procs pid
        (if headPid lockid s.kernel = pid then p.enter lockid else { p with pc := .block lockid })⟩
    | _ => none
  | .block =>
    match (s.procs pid).pc with
    | .block lockid =>
      some ⟨changeTaskStatus pid 1 s.kernel,
        upd s.procs pid { s.procs pid with pc := .check lockid }⟩
    | _ => none
  | .unlock lockid =>
    if (s.procs pid).pc = .run ∧ (s.procs pid).held.head? = some lockid then
      some ⟨unlock pid lockid s.kernel, upd s.procs pid ((s.procs pid).leave lockid)⟩
    else none

/-- All queues are empty and no process is in a section. -/
def Init (s : Sys) : Prop :=
  (∀ lockid, s.kernel.locks lockid = ⟨0, 0⟩) ∧
    ∀ pid, (s.procs pid).pc = .run ∧ (s.procs pid).held = [] ∧ ∀ lockid, (s.procs pid).owns lockid = false

end Locking
