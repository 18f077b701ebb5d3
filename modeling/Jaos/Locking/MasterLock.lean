import Jaos.Heap.Reentry
import Jaos.Lib.Procedures
import Jaos.Locking.BLocking

/-!
# `master_lock` and the heap (`kernel/b_locking.c`, `kernel/monitor.c`, `kernel/kheap.c`)

`lock` and `unlock` allocate and free their records while they hold `master_lock`, `alloc` and `free`
print, and `puts` calls `lock` and `unlock`. The records lie in the heap: the owner of a lock is the pid
in the first bytes of its head. Every `spin_lock(&master_lock)` is an event, and one that the holder of
the lock makes does not return. So `master_lock` is taken twice exactly in the sections whose call of the
heap prints (`master_lock_iff`).
-/

namespace MasterLock

open Lib Locking Kheap

/-- What the processes share. -/
structure World (σ : Type) where
  heap : Heap
  pages : σ
  locks : Int → LockQueue
  status : Nat → Nat

/-- The world and whether this execution holds `master_lock`. While another one holds it, `spin_lock`
waits, and then goes on. -/
structure Machine (σ : Type) extends World σ where
  masterLock : Bool

/-- The pages of the heap, the lock of the console, the process, and what the others have done when it
runs again after it has blocked for the time `k`. -/
structure Env (σ : Type) where
  pg : KernelPages σ
  monitorLock : Int
  pid : Nat
  others : (k : Nat) → World σ → World σ

/-- The places of `spin_lock(&master_lock)`: at the start of `lock`, in its waiting loop, in `unlock`. -/
inductive Place where
  | lock (lockid : Int)
  | check (lockid : Int)
  | unlock (lockid : Int)

/-- The procedures. -/
inductive Proc where
  | alloc (size pageAlign : Nat)
  | free (p : Nat)
  | puts (str : String)
  | putchar
  | lock (lockid : Int)
  | unlock (lockid : Int)

/-- Code that comes to `spin_lock`. -/
abbrev Run (σ : Type) := Code (Machine σ) (Place × Machine σ) Proc

namespace Machine

variable {σ : Type} (m : Machine σ)

/-- `master_lock = 0`. -/
def release : Machine σ := { m with masterLock := false }

def put (x : Heap × σ) : Machine σ := { m with heap := x.1, pages := x.2 }

def setQueue (lockid : Int) (q : LockQueue) : Machine σ := { m with locks := upd m.locks lockid q }

/-- The fields of a record. -/
def recordPid (lck : Nat) : Nat := m.heap.mem.load lck 8

def recordNext (lck : Nat) : Nat := m.heap.mem.load (lck + 8) 8

def setRecord (lck pid next : Nat) : Machine σ :=
  { m with heap := onMem (fun mem => (mem.store lck 8 pid).store (lck + 8) 8 next) m.heap }

def setNext (lck next : Nat) : Machine σ :=
  { m with heap := onMem (fun mem => mem.store (lck + 8) 8 next) m.heap }

def changeTaskStatus (pid status : Nat) : Machine σ := { m with status := upd m.status pid status }

end Machine

section
variable {σ : Type} (env : Env σ)

/-- `spin_lock(&master_lock)`. -/
def spinLock (p : Place) (m : Machine σ) (k : Machine σ → Run σ) : Run σ :=
  .event (p, m) (if m.masterLock then .stuck else k { m with masterLock := true })

/-- `kmalloc`. -/
def kmalloc (sz : Nat) (m : Machine σ) (k : Nat → Machine σ → Run σ) : Run σ :=
  if sz = 0 then k 0 m else .call (.alloc sz 0) m k

/-- `kfree`. -/
def kfree (p : Nat) (m : Machine σ) (k : Machine σ → Run σ) : Run σ := .call (.free p) m fun _ m => k m

/-- `sizeof(struct lock)`. -/
def sizeofLock : Nat := 16

/-- The loop of `lock`, from the check number `k` on. -/
def waitInLine : (n k : Nat) → (lockid : Int) → Machine σ → Run σ
  | 0, _, _, _ => .stuck
  | n + 1, k, lockid, m =>
    spinLock (.check lockid) m fun m =>
      if m.recordPid (m.locks lockid).head = env.pid then .ret 0 m.release
      else
        let m := m.release.changeTaskStatus env.pid 1
        waitInLine n (k + 1) lockid { m with toWorld := env.others k m.toWorld }

/-- `lock`. -/
def lock (n : Nat) (lockid : Int) (m : Machine σ) : Run σ :=
  if lockid = -1 then .ret 0 m
  else
    spinLock (.lock lockid) m fun m =>
      if (m.locks lockid).head = 0 then
        kmalloc sizeofLock m fun lck m =>
          .ret 0 ((m.setRecord lck env.pid 0).setQueue lockid ⟨lck, lck⟩).release
      else if m.recordPid (m.locks lockid).head = env.pid then .ret 0 m.release
      else
        kmalloc sizeofLock m fun lck m =>
          let m := (m.setRecord lck env.pid 0).setNext (m.locks lockid).tail lck
          waitInLine env n 0 lockid (m.setQueue lockid ⟨(m.locks lockid).head, lck⟩).release

/-- The end of `unlock`. -/
def wakeHead (lockid : Int) (m : Machine σ) : Run σ :=
  .ret 0 (m.changeTaskStatus (m.recordPid (m.locks lockid).head) 0).release

/-- `unlock`. -/
def unlock (lockid : Int) (m : Machine σ) : Run σ :=
  if lockid = -1 then .ret 0 m
  else
    spinLock (.unlock lockid) m fun m =>
      let tmp := (m.locks lockid).head
      if tmp = 0 then kfree tmp m.release (.ret 0)
      else if tmp = (m.locks lockid).tail then
        kfree tmp (m.setQueue lockid ⟨0, 0⟩).release (.ret 0)
      else if m.recordPid tmp = env.pid then
        kfree tmp (m.setQueue lockid ⟨m.recordNext tmp, (m.locks lockid).tail⟩) (wakeHead lockid)
      else wakeHead lockid m

/-- `putchar`, without what it does to the screen. -/
def putchar (m : Machine σ) : Run σ :=
  .call (.lock env.monitorLock) m fun _ m => .call (.unlock env.monitorLock) m .ret

/-- The loop of `puts`. -/
def putchars : List Char → Machine σ → Run σ
  | [], m => .call (.unlock env.monitorLock) m .ret
  | _ :: str, m => .call .putchar m fun _ m => putchars str m

/-- `puts`. -/
def puts (str : String) (m : Machine σ) : Run σ :=
  .call (.lock env.monitorLock) m fun _ m => putchars env str.toList m

/-- A call of the heap, which prints now and then. -/
def heapCode {α : Type} (val : α → Nat) : Prog (Heap × σ) String α → Machine σ → Run σ
  | .ret a x, m => .ret (val a) (m.put x)
  | .stuck, _ => .stuck
  | .call msg x k, m => .call (.puts msg) (m.put x) fun _ m => heapCode val (k (m.heap, m.pages)) m

/-- The procedures; `n` bounds the expansions of one `alloc` and the checks of one `lock`. -/
def body (n : Nat) : Proc → Machine σ → Run σ
  | .alloc size pageAlign, m => heapCode id (allocCalls env.pg n size pageAlign (m.heap, m.pages)) m
  | .free p, m => heapCode (fun _ => 0) (freeCalls env.pg p (m.heap, m.pages)) m
  | .puts str, m => puts env str m
  | .putchar, m => putchar env m
  | .lock lockid, m => lock env n lockid m
  | .unlock lockid, m => unlock env lockid m

/-! ## Quiet sections -/

/-- **`master_lock` is not taken twice**: whatever a call of `c` calls in turn, it comes to no `spin_lock`
while it holds the lock. -/
def TakenOnce (c : Proc) (m : Machine σ) : Prop :=
  ∀ e, Enters (body env) c m e → ¬ e.2.masterLock = true

/-- `lock` returns at once, or allocates a record without printing. -/
def LockQuiet (lockid : Int) (m : Machine σ) : Prop :=
  (m.locks lockid).head ≠ 0 ∧ m.recordPid (m.locks lockid).head = env.pid ∨
    AllocQuiet env.pg sizeofLock 0 m.heap m.pages

/-- `unlock` frees no record while it holds `master_lock`, or does so without printing. -/
def UnlockQuiet (lockid : Int) (m : Machine σ) : Prop :=
  (m.locks lockid).head = 0 ∨ (m.locks lockid).head = (m.locks lockid).tail ∨
    m.recordPid (m.locks lockid).head ≠ env.pid ∨ FreeQuiet m.heap (m.locks lockid).head

/-- The condition on a section that begins at this place. -/
def SectionQuiet : Place × Machine σ → Prop
  | (.lock lockid, m) => LockQuiet env lockid m
  | (.check _, _) => True
  | (.unlock lockid, m) => UnlockQuiet env lockid m

end

section
variable {σ : Type} {env : Env σ} {m : Machine σ} {lockid : Int} {n a : Nat} {t : Machine σ}
  {e : Place × Machine σ}

/-! ## While `master_lock` is held -/

/-- `lock` comes to its `spin_lock` and stays there. -/
theorem lock_held (hid : lockid ≠ -1) (hm : m.masterLock = true) :
    lock env n lockid m = .event (.lock lockid, m) .stuck := by
  rw [lock, if_neg hid, spinLock, if_pos hm]

theorem not_yields_lock_held (hid : lockid ≠ -1) (hm : m.masterLock = true) :
    ¬ Yields (body env) (body env n (.lock lockid) m) a t := by
  intro h
  rw [body, lock_held hid hm, yields_event] at h
  exact not_yields_stuck h

/-- So does `puts`. -/
theorem enters_puts_held (hreg : env.monitorLock ≠ -1) (hm : m.masterLock = true) (str : String) :
    Enters (body env) (.puts str) m e ↔ e = (.lock env.monitorLock, m) := by
  have hlock : ∀ n, body env n (.lock env.monitorLock) m = .event (.lock env.monitorLock, m) .stuck :=
    fun n => lock_held hreg hm
  constructor
  · rintro ⟨n, h⟩
    rcases shows_call.1 h with ⟨n, h⟩ | ⟨n, v, t, h, -⟩
    · rw [hlock, shows_event] at h
      exact h.resolve_right not_shows_stuck
    · exact absurd h (not_yields_lock_held hreg hm)
  · rintro rfl
    exact ⟨0, .inside (n := 0) (by rw [hlock]; exact .here)⟩

theorem not_yields_puts_held (hreg : env.monitorLock ≠ -1) (hm : m.masterLock = true) (str : String) :
    ¬ Yields (body env) (body env n (.puts str) m) a t := by
  intro h
  obtain ⟨n, v, t, h, -⟩ := yields_call.1 h
  exact not_yields_lock_held hreg hm h

/-- **A call of the heap prints, or comes to no `spin_lock`.** -/
theorem heapCode_held (hreg : env.monitorLock ≠ -1) (hm : m.masterLock = true) {α : Type} {val : α → Nat}
    (p : Prog (Heap × σ) String α) :
    ((∃ e, Shows (body env) (heapCode val p m) e) ↔ p.calls) ∧
      (∀ e, Shows (body env) (heapCode val p m) e → e.2.masterLock = true) ∧
      ∀ a t, Yields (body env) (heapCode val p m) a t → t.masterLock = true := by
  cases p with
  | ret b x =>
    refine ⟨iff_of_false (fun ⟨e, h⟩ => not_shows_ret h) id, fun e h => absurd h not_shows_ret, fun a t h => ?_⟩
    obtain ⟨-, rfl⟩ := yields_ret.1 h
    exact hm
  | stuck =>
    exact ⟨iff_of_false (fun ⟨e, h⟩ => not_shows_stuck h) id, fun e h => absurd h not_shows_stuck,
      fun a t h => absurd h not_yields_stuck⟩
  | call msg x k =>
    have hput : (m.put x).masterLock = true := hm
    refine ⟨iff_of_true ⟨(.lock env.monitorLock, m.put x), ?_⟩ trivial, fun e h => ?_, fun a t h => ?_⟩
    · obtain ⟨n, h⟩ := (enters_puts_held hreg hput msg).2 rfl
      exact .inside h
    · rcases shows_call.1 h with h | ⟨n, v, t, h, -⟩
      · obtain rfl := (enters_puts_held hreg hput msg).1 h
        exact hm
      · exact absurd h (not_yields_puts_held hreg hput msg)
    · obtain ⟨n, v, t, h, -⟩ := yields_call.1 h
      exact absurd h (not_yields_puts_held hreg hput msg)

/-- What `kmalloc` does for a record. -/
theorem alloc_held (hreg : env.monitorLock ≠ -1) (hm : m.masterLock = true) {size pageAlign : Nat} :
    ((∃ e, Enters (body env) (.alloc size pageAlign) m e) ↔
      ¬ AllocQuiet env.pg size pageAlign m.heap m.pages) ∧
      ∀ e, Enters (body env) (.alloc size pageAlign) m e → e.2.masterLock = true := by
  refine ⟨?_, fun e ⟨n, h⟩ => (heapCode_held hreg hm _).2.1 e h⟩
  rw [← calls_alloc, Classical.not_forall_not]
  constructor
  · rintro ⟨e, n, h⟩
    exact ⟨n, (heapCode_held hreg hm _).1.1 ⟨e, h⟩⟩
  · rintro ⟨n, h⟩
    obtain ⟨e, h⟩ := (heapCode_held hreg hm _).1.2 h
    exact ⟨e, n, h⟩

/-- What `kfree` does. -/
theorem free_held (hreg : env.monitorLock ≠ -1) (hm : m.masterLock = true) {p : Nat} :
    ((∃ e, Enters (body env) (.free p) m e) ↔ ¬ FreeQuiet m.heap p) ∧
      ∀ e, Enters (body env) (.free p) m e → e.2.masterLock = true := by
  refine ⟨?_, fun e ⟨n, h⟩ => (heapCode_held hreg hm _).2.1 e h⟩
  have hcalls : (freeCalls env.pg p (m.heap, m.pages)).calls ↔ ¬ FreeQuiet m.heap p := calls_free
  rw [← hcalls, ← (heapCode_held hreg hm _).1]
  exact ⟨fun ⟨e, n, h⟩ => ⟨e, h⟩, fun ⟨e, h⟩ => ⟨e, 0, h⟩⟩

/-! ## While it is not -/

/-- The code runs outside of the sections of `master_lock` when it starts and when it returns. -/
def Outside (env : Env σ) (o : Option (Place × Machine σ)) (p : Run σ) : Prop :=
  Sections (body env) (fun m => m.masterLock = false) (fun e => e.2.masterLock = true)
    (fun e => ¬ SectionQuiet env e) o p

theorem spinLock_free {p : Place} {k : Machine σ → Run σ} (hm : m.masterLock = false) :
    spinLock p m k = .event (p, m) (k { m with masterLock := true }) := by
  rw [spinLock, hm]
  rfl

theorem heapCode_outside {α : Type} {val : α → Nat} {p : Prog (Heap × σ) String α}
    (hm : m.masterLock = false) : Outside env none (heapCode val p m) := by
  induction p generalizing m with
  | ret a x => exact .ret hm
  | stuck => exact .stuck
  | call msg x k ih => exact .call hm fun v t ht => ih _ ht

theorem putchars_outside {str : List Char} (hm : m.masterLock = false) :
    Outside env none (putchars env str m) := by
  induction str generalizing m with
  | nil => exact .call hm fun v t ht => .ret ht
  | cons c str ih => exact .call hm fun v t ht => ih ht

theorem waitInLine_outside {k : Nat} (hm : m.masterLock = false) :
    Outside env none (waitInLine env n k lockid m) := by
  induction n generalizing k m with
  | zero => exact .stuck
  | succ n ih =>
    rw [waitInLine, spinLock_free hm]
    refine .pass (by rw [hm]; decide) (fun h => h trivial) ?_
    split
    · exact .ret rfl
    · exact ih rfl

/-- A section that allocates. -/
theorem newLock_outside (hreg : env.monitorLock ≠ -1) {k : Nat → Machine σ → Run σ}
    (hm : m.masterLock = false) (hquiet : LockQuiet env lockid m ↔ AllocQuiet env.pg sizeofLock 0 m.heap m.pages)
    (hk : ∀ lck t, Outside env none (k lck t)) :
    Outside env none (.event (.lock lockid, m) (kmalloc sizeofLock { m with masterLock := true } k)) := by
  refine .enter (by rw [hm]; decide) ?_
  have halloc := @alloc_held σ env { m with masterLock := true } hreg rfl sizeofLock 0
  exact .leave halloc.2 (halloc.1.trans (not_congr hquiet.symm)) fun n v t _ => hk v t

theorem lock_outside (hreg : env.monitorLock ≠ -1) (hm : m.masterLock = false) :
    Outside env none (lock env n lockid m) := by
  unfold lock
  split
  · exact .ret hm
  · rw [spinLock_free hm]
    dsimp only
    split
    · next hhead =>
      exact newLock_outside hreg hm (or_iff_right fun h => h.1 hhead) fun lck t => .ret rfl
    · next hhead =>
      split
      · next hpid =>
        exact .pass (by rw [hm]; decide) (fun h => h (.inl ⟨hhead, hpid⟩)) (.ret rfl)
      · next hpid =>
        exact newLock_outside hreg hm (or_iff_right fun h => hpid h.2) fun lck t => waitInLine_outside rfl

theorem unlock_outside (hreg : env.monitorLock ≠ -1) (hm : m.masterLock = false) :
    Outside env none (unlock env lockid m) := by
  unfold unlock
  split
  · exact .ret hm
  · rw [spinLock_free hm]
    have hheld : ¬ m.masterLock = true := by
      rw [hm]
      decide
    dsimp only
    split
    · next hhead => exact .pass hheld (fun h => h (.inl hhead)) (.call rfl fun v t ht => .ret ht)
    · split
      · next htail => exact .pass hheld (fun h => h (.inr (.inl htail))) (.call rfl fun v t ht => .ret ht)
      · split
        · next hhead htail hpid =>
          -- the record is freed inside the section
          refine .enter hheld ?_
          have hfree := @free_held σ env
            (Machine.setQueue { m with masterLock := true } lockid
              ⟨m.recordNext (m.locks lockid).head, (m.locks lockid).tail⟩) hreg rfl (m.locks lockid).head
          refine .leave hfree.2 (hfree.1.trans (not_congr ?_)) fun n v t _ => .ret rfl
          exact ⟨fun h => .inr (.inr (.inr h)), fun h => ((h.resolve_left hhead).resolve_left htail).resolve_left
            fun h => h hpid⟩
        · next hpid => exact .pass hheld (fun h => h (.inr (.inr (.inl hpid)))) (.ret rfl)

theorem body_outside (hreg : env.monitorLock ≠ -1) (n : Nat) (c : Proc) (m : Machine σ)
    (hm : m.masterLock = false) : Outside env none (body env n c m) := by
  cases c with
  | alloc size pageAlign => exact heapCode_outside hm
  | free p => exact heapCode_outside hm
  | puts str => exact .call hm fun v t ht => putchars_outside ht
  | putchar => exact .call hm fun v t ht => .call ht fun v t ht => .ret ht
  | lock lockid => exact lock_outside hreg hm
  | unlock lockid => exact unlock_outside hreg hm

/-! ## What a call comes to -/

/-- **Taken once if and only if every section is quiet**, those of nested calls included. -/
theorem takenOnce_iff (hreg : env.monitorLock ≠ -1) (hm : m.masterLock = false) {c : Proc} :
    TakenOnce env c m ↔ ∀ e, Enters (body env) c m e → SectionQuiet env e := by
  unfold TakenOnce
  rw [Sections.held_iff (body_outside hreg) hm]
  exact forall_congr' fun e => imp_congr_right fun _ => Classical.not_not

/-- A call of the heap that does not print. -/
theorem not_shows_heapCode {α : Type} {val : α → Nat} {p : Prog (Heap × σ) String α} (hp : ¬ p.calls) :
    ¬ Shows (body env) (heapCode val p m) e := by
  cases p with
  | ret a x => exact not_shows_ret
  | stuck => exact not_shows_stuck
  | call msg x k => exact absurd trivial hp

theorem not_enters_free {p : Nat} (hq : FreeQuiet m.heap p) : ¬ Enters (body env) (.free p) m e :=
  fun ⟨_, h⟩ => not_shows_heapCode (fun hc => calls_free.1 hc hq) h

theorem not_enters_alloc {size pageAlign : Nat} (hq : AllocQuiet env.pg size pageAlign m.heap m.pages) :
    ¬ Enters (body env) (.alloc size pageAlign) m e :=
  fun ⟨n, h⟩ => not_shows_heapCode (calls_alloc.2 hq n) h

theorem shows_waitInLine {k : Nat} (hm : m.masterLock = false)
    (h : Shows (body env) (waitInLine env n k lockid m) e) : ∃ t, e = (.check lockid, t) := by
  induction n generalizing k m with
  | zero => exact absurd h not_shows_stuck
  | succ n ih =>
    rw [waitInLine, spinLock_free hm, shows_event] at h
    rcases h with rfl | h
    · exact ⟨m, rfl⟩
    · split at h
      · exact absurd h not_shows_ret
      · exact ih rfl h

theorem shows_lock (hid : lockid ≠ -1) (hm : m.masterLock = false) :
    Shows (body env) (lock env n lockid m) (.lock lockid, m) := by
  rw [lock, if_neg hid, spinLock_free hm]
  exact .here

theorem shows_unlock (hid : lockid ≠ -1) (hm : m.masterLock = false) :
    Shows (body env) (unlock env lockid m) (.unlock lockid, m) := by
  rw [unlock, if_neg hid, spinLock_free hm]
  exact .here

/-- If `lock` is quiet, nothing happens but its own rounds. -/
theorem LockQuiet.sections (hq : LockQuiet env lockid m) (hm : m.masterLock = false)
    (h : Enters (body env) (.lock lockid) m e) : SectionQuiet env e := by
  obtain ⟨n, h⟩ := h
  change Shows (body env) (lock env n lockid m) e at h
  unfold lock at h
  split at h
  · exact absurd h not_shows_ret
  · rw [spinLock_free hm, shows_event] at h
    rcases h with rfl | h
    · exact hq
    · dsimp only at h
      split at h
      · next hhead =>
        rcases shows_call.1 h with h | ⟨_, _, _, -, h⟩
        · exact absurd h (not_enters_alloc (hq.resolve_left fun h => h.1 hhead))
        · exact absurd h not_shows_ret
      · split at h
        · exact absurd h not_shows_ret
        · next hpid =>
          rcases shows_call.1 h with h | ⟨_, _, _, -, h⟩
          · exact absurd h (not_enters_alloc (hq.resolve_left fun h => hpid h.2))
          · obtain ⟨t, rfl⟩ := shows_waitInLine rfl h
            exact trivial

/-- If `unlock` prints nothing, it has one section. -/
theorem UnlockQuiet.sections (hq : UnlockQuiet env lockid m) (hm : m.masterLock = false)
    (hlast : (m.locks lockid).head ≠ (m.locks lockid).tail ∨ FreeQuiet m.heap (m.locks lockid).head)
    (h : Enters (body env) (.unlock lockid) m e) : SectionQuiet env e := by
  obtain ⟨n, h⟩ := h
  change Shows (body env) (unlock env lockid m) e at h
  have hfree : ∀ {t : Machine σ} {k : Machine σ → Run σ}, FreeQuiet t.heap (m.locks lockid).head →
      (∀ t, ¬ Shows (body env) (k t) e) →
      ¬ Shows (body env) (MasterLock.kfree (m.locks lockid).head t k) e := by
    intro t k hf hk h
    rcases shows_call.1 h with h | ⟨_, _, t, -, h⟩
    · exact not_enters_free hf h
    · exact hk t h
  unfold unlock at h
  split at h
  · exact absurd h not_shows_ret
  · rw [spinLock_free hm, shows_event] at h
    rcases h with rfl | h
    · exact hq
    · dsimp only at h
      split at h
      · next hhead => exact absurd h (hfree (.inl hhead) fun _ => not_shows_ret)
      · next hhead =>
        split at h
        · next htail => exact absurd h (hfree (hlast.resolve_left fun h => h htail) fun _ => not_shows_ret)
        · next htail =>
          split at h
          · next hpid =>
            have hf := ((hq.resolve_left hhead).resolve_left htail).resolve_left fun h => h hpid
            exact absurd h (hfree hf fun _ => not_shows_ret)
          · exact absurd h not_shows_ret

/-- **When `master_lock` is not taken twice.** For `lock`: there is nothing to allocate, or the allocation
prints nothing; for `unlock`, unless it frees the last record and prints after it has released the
lock: there is nothing to free inside, or that prints nothing; and for every execution: all sections that
it comes to are such. -/
theorem master_lock_iff (hreg : env.monitorLock ≠ -1) (hm : m.masterLock = false) :
    (∀ lockid, TakenOnce env (.lock lockid) m ↔ lockid = -1 ∨ LockQuiet env lockid m) ∧
    (∀ lockid, ((m.locks lockid).head ≠ (m.locks lockid).tail ∨ FreeQuiet m.heap (m.locks lockid).head) →
      (TakenOnce env (.unlock lockid) m ↔ lockid = -1 ∨ UnlockQuiet env lockid m)) ∧
    ∀ c, TakenOnce env c m ↔ ∀ e, Enters (body env) c m e → SectionQuiet env e := by
  refine ⟨fun lockid => ?_, fun lockid hlast => ?_, fun c => takenOnce_iff hreg hm⟩
  · rw [takenOnce_iff hreg hm]
    constructor
    · exact fun h => Decidable.or_iff_not_imp_left.2 fun hid => h _ ⟨0, shows_lock hid hm⟩
    · rintro (hid | hq) e h
      · obtain ⟨n, h⟩ := h
        change Shows (body env) (lock env n lockid m) e at h
        rw [lock, if_pos hid] at h
        exact absurd h not_shows_ret
      · exact hq.sections hm h
  · rw [takenOnce_iff hreg hm]
    constructor
    · exact fun h => Decidable.or_iff_not_imp_left.2 fun hid => h _ ⟨0, shows_unlock hid hm⟩
    · rintro (hid | hq) e h
      · obtain ⟨n, h⟩ := h
        change Shows (body env) (unlock env lockid m) e at h
        rw [unlock, if_pos hid] at h
        exact absurd h not_shows_ret
      · exact hq.sections hm hlast h

end

/-! ## Three processes -/

/-- Process `pid`, where the others do nothing. -/
def process (pid : Nat) : Env Nat := ⟨bumpPages, 0, pid, fun _ w => w⟩

/-- Process `pid` owns every lock with the record `head`, another one waits with the record `tail`. -/
def owned (pid head tail : Nat) (s : Sys Nat) : Machine Nat :=
  Machine.setRecord ⟨⟨s.heap, s.pages, fun _ => ⟨head, tail⟩, fun _ => 0⟩, false⟩ head pid tail

/-- Process 1 unlocks, and process 2 waits with the next record. -/
theorem master_lock_first : ∃ s, runList exec [.alloc 16 0, .alloc 16 0] sys0 = some s ∧
    TakenOnce (process 1) (.unlock 0) (owned 1 0xC0019010 0xC0019040 s) := by
  have hrun : (runList exec [.alloc 16 0, .alloc 16 0] sys0).map
      (fun s => decide (FreeQuiet (owned 1 0xC0019010 0xC0019040 s).heap 0xC0019010)) = some true := by
    decide +kernel
  obtain ⟨s, hs, hq⟩ := Option.map_eq_some_iff.1 hrun
  have hreg : (process 1).monitorLock ≠ -1 := by decide
  exact ⟨s, hs, ((master_lock_iff hreg rfl).2.1 0 (.inl (show 0xC0019010 ≠ 0xC0019040 by decide))).2
    (.inr (.inr (.inr (.inr (of_decide_eq_true hq)))))⟩

/-- **Process 1 has unlocked and waits again, process 2 has unlocked.** The record of process 3 lies in front
of the hole that ends the heap: `unlock` frees it inside its section, `contract` prints, and `lock`
waits for the `master_lock` that its own process holds. -/
theorem master_lock_twice : ∃ s,
    runList exec [.alloc 16 0, .alloc 16 0, .alloc 16 0, .free 0xC0019010, .alloc 16 0, .free 0xC0019040] sys0 =
      some s ∧ (∃ b ∈ s.live, b.p = 0xC0019070) ∧ (∃ b ∈ s.live, b.p = 0xC0019010) ∧
    ¬ TakenOnce (process 3) (.unlock 0) (owned 3 0xC0019070 0xC0019010 s) := by
  have hrun : (runList exec [.alloc 16 0, .alloc 16 0, .alloc 16 0, .free 0xC0019010, .alloc 16 0,
      .free 0xC0019040] sys0).map (fun s => (s.live.map Block.p,
        (owned 3 0xC0019070 0xC0019010 s).recordPid 0xC0019070,
        decide (FreeQuiet (owned 3 0xC0019070 0xC0019010 s).heap 0xC0019070))) =
      some ([0xC0019010, 0xC0019070], 3, false) := by
    decide +kernel
  obtain ⟨s, hs, h⟩ := Option.map_eq_some_iff.1 hrun
  simp only [Prod.mk.injEq, decide_eq_false_iff_not] at h
  obtain ⟨hlive, hpid, hq⟩ := h
  have hmem : ∀ p ∈ [0xC0019010, 0xC0019070], ∃ b ∈ s.live, b.p = p := fun p hp => by
    rw [← hlive] at hp
    exact List.mem_map.1 hp
  refine ⟨s, hs, hmem _ (by decide), hmem _ (by decide), fun h => ?_⟩
  have hid : (0 : Int) ≠ -1 := by decide
  have hquiet : UnlockQuiet (process 3) 0 (owned 3 0xC0019070 0xC0019010 s) :=
    (takenOnce_iff (show (process 3).monitorLock ≠ -1 by decide) rfl).1 h _ ⟨0, shows_unlock hid rfl⟩
  rcases hquiet with h0 | h0 | h0 | h0
  · exact absurd h0 (show (0xC0019070 : Nat) ≠ 0 by decide)
  · exact absurd h0 (show (0xC0019070 : Nat) ≠ 0xC0019010 by decide)
  · exact h0 hpid
  · exact hq h0

end MasterLock
