import Jaos.Locking.MasterLock
import Jaos.Locking.Proof.Queue

/-!
# The records of a lock in the heap (`kernel/b_locking.c`)

`Locking` keeps the records of the queues by their addresses, and a section under `master_lock` is one
step of it. In `MasterLock`, and where the heap calls `puts` (`Heap/Calls`), they are bytes of the heap,
and a section is open where it calls `kmalloc` or `kfree`. Both do what `Locking` does to the records that
the bytes stand for (`InBytes`): `MasterLock.lock_refines`, `waitInLine_refines`, `unlock_refines`,
`Kheap.lock_refines`, `Kheap.unlock_refines`. And `puts` is the same calls of `lock` and `unlock` in both
(`MasterLock.puts_passes`, `Kheap.putsLocked_sections`).

Of `kmalloc` and `kfree` this asks that they leave the records in use alone and that a new one is apart
from them (`Fresh`), of the queue that it runs through records in use (`Linked`), as it does in every run
(`Queue.linked`).
-/

namespace Locking

open Lib Kheap

/-- The records in use are in the heap, and none lies in another one. -/
structure InBytes (h : Heap) (k : Kernel) : Prop where
  record : ∀ a ∈ k.live, k.record a = ⟨h.mem.load a 8, h.mem.load (a + 8) 8⟩
  apart : ∀ a ∈ k.live, ∀ b ∈ k.live, a = b ∨ a + 16 ≤ b ∨ b + 16 ≤ a
  nonzero : 0 ∉ k.live

/-- An address for a new record. -/
structure Fresh (lck : Nat) (k : Kernel) : Prop where
  nonzero : lck ≠ 0
  lt : lck < 2 ^ 64
  apart : ∀ a ∈ k.live, a + 16 ≤ lck ∨ lck + 16 ≤ a

/-- The ends of the queue are records in use, and behind the head there is another one. -/
def Linked (lockid : Int) (k : Kernel) : Prop :=
  let q := k.locks lockid
  q.head ≠ 0 → q.head ∈ k.live ∧ q.tail ∈ k.live ∧
    (q.head ≠ q.tail → (k.record q.head).next ∈ k.live.erase q.head)

theorem Queue.linked {s : Sys} {id : Int} {q : List Nat} (h : Queue s id q) : Linked id s.kernel := by
  intro hhead
  cases q with
  | nil => exact absurd (h.empty_iff.2 rfl) hhead
  | cons a l =>
    rw [h.head.1]
    refine ⟨h.live a List.mem_cons_self, ?_, fun hne => ?_⟩
    · rcases List.eq_nil_or_concat (a :: l) with hnil | ⟨m, t, hm⟩
      · cases hnil
      · rw [h.tail m t (by rw [hm, List.concat_eq_append])]
        exact h.live t (by rw [hm]; simp)
    · cases l with
      | nil => exact absurd (h.single_iff.2 rfl) hne
      | cons b l =>
        obtain ⟨-, -, hnext, -⟩ := h.chain
        rw [show (s.kernel.record a).next = b from hnext]
        have hab : b ≠ a := fun hba => (List.nodup_cons.1 h.nodup_addr).1 (hba ▸ List.mem_cons_self)
        exact (List.mem_erase_of_ne hab).2 (h.live b (by simp))

/-! ## The branches of `lock` -/

section
variable {k : Kernel} {lockid : Int} {self lck : Nat}

theorem lock_empty (hid : lockid ≠ -1) (h : (k.locks lockid).head = 0) :
    lock self lockid lck k = (true, setQueue lockid ⟨lck, lck⟩ (newLock self lck k)) := by
  rw [lock, if_neg hid, if_pos h]

theorem lock_again (hid : lockid ≠ -1) (h : (k.locks lockid).head ≠ 0) (hown : headPid lockid k = self) :
    lock self lockid lck k = (true, k) := by
  rw [lock, if_neg hid, if_neg h, if_pos hown]

theorem lock_wait (hid : lockid ≠ -1) (h : (k.locks lockid).head ≠ 0) (hown : headPid lockid k ≠ self) :
    lock self lockid lck k = (false, setQueue lockid ⟨(k.locks lockid).head, lck⟩
      (setNext (k.locks lockid).tail lck (newLock self lck k))) := by
  rw [lock, if_neg hid, if_neg h, if_neg hown]
  rfl

end

/-! ## The bytes of the records -/

section
variable {h : Heap} {k : Kernel} {a lck self next : Nat}

theorem InBytes.pid (r : InBytes h k) (ha : a ∈ k.live) : (k.record a).pid = h.mem.load a 8 := by
  rw [r.record a ha]

theorem InBytes.next_eq (r : InBytes h k) (ha : a ∈ k.live) : (k.record a).next = h.mem.load (a + 8) 8 := by
  rw [r.record a ha]

/-- A new record. -/
theorem InBytes.newLock (r : InBytes h k) (hf : Fresh lck k) (hself : self < 2 ^ 64) :
    InBytes (onMem (fun m => (m.store lck 8 self).store (lck + 8) 8 0) h) (newLock self lck k) := by
  constructor
  · intro a ha
    rw [onMem_mem]
    show upd k.record lck ⟨self, 0⟩ a = _
    rcases List.mem_cons.1 ha with rfl | ha
    · rw [upd_same, Mem.load_store_same, Mem.load_store_ne _ _ (by omega), Mem.load_store_same,
        Nat.mod_eq_of_lt (by omega)]
      rfl
    · have hne := hf.apart a ha
      rw [upd_ne _ _ (by omega), r.record a ha, Mem.load_store_ne _ _ (by omega), Mem.load_store_ne _ _ (by omega),
        Mem.load_store_ne _ _ (by omega), Mem.load_store_ne _ _ (by omega)]
  · intro a ha b hb
    rcases List.mem_cons.1 ha with ha' | ha' <;> rcases List.mem_cons.1 hb with hb' | hb'
    · exact .inl (ha'.trans hb'.symm)
    · have := hf.apart b hb'
      omega
    · have := hf.apart a ha'
      omega
    · exact r.apart a ha' b hb'
  · intro h0
    rcases List.mem_cons.1 h0 with h0 | h0
    · exact hf.nonzero h0.symm
    · exact r.nonzero h0

/-- A record is linked behind another one. -/
theorem InBytes.setNext (r : InBytes h k) (ha : a ∈ k.live) (hn : next < 2 ^ 64) :
    InBytes (onMem (fun m => m.store (a + 8) 8 next) h) (setNext a next k) := by
  refine ⟨fun b hb => ?_, r.apart, r.nonzero⟩
  rw [onMem_mem]
  show upd k.record a { k.record a with next } b = _
  rcases r.apart a ha b hb with rfl | hne
  · rw [upd_same, Mem.load_store_same, Mem.load_store_ne _ _ (by omega), Nat.mod_eq_of_lt (by omega), ← r.pid ha]
  · rw [upd_ne _ _ (by omega), Mem.load_store_ne _ _ (by omega), Mem.load_store_ne _ _ (by omega)]
    exact r.record b hb

end

/-! ## The sections of `puts` -/

/-- A call of `lock` or of `unlock` with the lock of the monitor. -/
inductive Section
  | lock
  | unlock

/-- The calls in `puts`: around the string, and around each of its characters in `putchar`. -/
def putsSections (str : List Char) : List Section :=
  .lock :: (str.flatMap fun _ => [.lock, .unlock]) ++ [.unlock]

end Locking

namespace MasterLock

open Lib Locking Kheap

/-- The machine has the queues, the tasks and the records of `k`. -/
structure InHeap {σ : Type} (m : Machine σ) (k : Kernel) : Prop extends InBytes m.heap k where
  locks : m.locks = k.locks
  status : m.status = k.status

section
variable {σ : Type} {env : Env σ} {m t : Machine σ} {k : Kernel} {lockid : Int} {n lck a next pid status : Nat}
  {q : LockQueue}

theorem InHeap.hold (A : InHeap m k) (b : Bool) : InHeap { m with masterLock := b } k :=
  ⟨A.toInBytes, A.locks, A.status⟩

theorem InHeap.newLock (A : InHeap m k) (hf : Fresh lck k) (hpid : pid < 2 ^ 64) :
    InHeap (m.setRecord lck pid 0) (newLock pid lck k) :=
  ⟨A.toInBytes.newLock hf hpid, A.locks, A.status⟩

theorem InHeap.setNext (A : InHeap m k) (ha : a ∈ k.live) (hn : next < 2 ^ 64) :
    InHeap (m.setNext a next) (Locking.setNext a next k) :=
  ⟨A.toInBytes.setNext ha hn, A.locks, A.status⟩

theorem InHeap.setQueue (A : InHeap m k) : InHeap (m.setQueue lockid q) (Locking.setQueue lockid q k) :=
  ⟨⟨A.record, A.apart, A.nonzero⟩, congrArg (upd · lockid q) A.locks, A.status⟩

theorem InHeap.changeTaskStatus (A : InHeap m k) :
    InHeap (m.changeTaskStatus pid status) (Locking.changeTaskStatus pid status k) :=
  ⟨⟨A.record, A.apart, A.nonzero⟩, A.locks, congrArg (upd · pid status) A.status⟩

/-- The process at the head of a queue. -/
theorem InHeap.headPid (A : InHeap m k) (h : (k.locks lockid).head ∈ k.live) :
    m.recordPid (m.locks lockid).head = Locking.headPid lockid k := by
  rw [A.locks]
  exact (A.pid h).symm

/-- `master_lock` is taken and given back. -/
theorem release_hold (hm : m.masterLock = false) : Machine.release { m with masterLock := true } = m := by
  cases m
  cases hm
  rfl

/-- **`lock`** returns at once, or asks for a record and goes on as `Locking.lock` does. -/
theorem lock_refines (A : InHeap m k) (hid : lockid ≠ -1) (hm : m.masterLock = false)
    (hq : Linked lockid k) (hpid : env.pid < 2 ^ 64) :
    ((∀ lck, Locking.lock env.pid lockid lck k = (true, k)) ∧
      lock env n lockid m = .event (.lock lockid, m) (.ret 0 m)) ∨
    ∃ go, lock env n lockid m =
        .event (.lock lockid, m) (.call (.alloc sizeofLock 0) { m with masterLock := true } go) ∧
      ∀ lck t, InHeap t k → Fresh lck k → ∃ t', InHeap t' (Locking.lock env.pid lockid lck k).2 ∧
        t'.masterLock = false ∧
        go lck t = if (Locking.lock env.pid lockid lck k).1 then .ret 0 t'
          else waitInLine env n 0 lockid t' := by
  have hrelease : Machine.release { m with masterLock := true } = m := release_hold hm
  unfold lock
  rw [if_neg hid, spinLock_free hm]
  dsimp only
  by_cases hhead : (k.locks lockid).head = 0
  · right
    rw [if_pos (by rw [A.locks, hhead])]
    refine ⟨_, rfl, fun lck t T hf => ?_⟩
    rw [lock_empty hid hhead]
    exact ⟨_, (T.newLock hf hpid).setQueue.hold false, rfl, rfl⟩
  · obtain ⟨hlive, htail, -⟩ := hq hhead
    have hown : Machine.recordPid { m with masterLock := true } (m.locks lockid).head = Locking.headPid lockid k :=
      A.headPid hlive
    rw [if_neg (by rw [A.locks]; exact hhead), hown, hrelease]
    by_cases hown : Locking.headPid lockid k = env.pid
    · left
      rw [if_pos hown]
      exact ⟨fun lck => lock_again hid hhead hown, rfl⟩
    · right
      rw [if_neg hown]
      refine ⟨_, rfl, fun lck t T hf => ?_⟩
      rw [lock_wait hid hhead hown]
      have T1 := (T.newLock hf hpid).setNext (List.mem_cons_of_mem lck htail) hf.lt
      refine ⟨Machine.release _, T1.setQueue.hold false, rfl, ?_⟩
      show waitInLine env n 0 lockid (Machine.release (((t.setRecord lck env.pid 0).setNext
        (t.locks lockid).tail lck).setQueue lockid ⟨(t.locks lockid).head, lck⟩)) = _
      rw [T.locks]
      rfl

/-- **A round of the waiting loop**: the check, and if the process is not at the head, its new status. -/
theorem waitInLine_refines {j : Nat} (A : InHeap m k) (hm : m.masterLock = false)
    (hlive : (k.locks lockid).head ∈ k.live) :
    ∃ t, InHeap t (Locking.changeTaskStatus env.pid 1 k) ∧
      waitInLine env (n + 1) j lockid m = .event (.check lockid, m)
        (if Locking.headPid lockid k = env.pid then .ret 0 m
          else waitInLine env n (j + 1) lockid { t with toWorld := env.others j t.toWorld }) := by
  have hrelease : Machine.release { m with masterLock := true } = m := release_hold hm
  refine ⟨m.changeTaskStatus env.pid 1, A.changeTaskStatus, ?_⟩
  rw [waitInLine, spinLock_free hm, ← A.headPid hlive, hrelease]
  rfl

/-- The end of `unlock`. -/
theorem InHeap.wakeHead (A : InHeap m k) (hlive : (k.locks lockid).head ∈ k.live) :
    ∃ t, wakeHead lockid m = .ret 0 t ∧ t.masterLock = false ∧
      InHeap t (Locking.changeTaskStatus (Locking.headPid lockid k) 0 k) := by
  refine ⟨_, rfl, rfl, ?_⟩
  rw [A.headPid hlive]
  exact A.changeTaskStatus.hold false

/-- **`unlock`** frees a record and goes on as `Locking.unlock` does, or frees none. -/
theorem unlock_refines (A : InHeap m k) (hid : lockid ≠ -1) (hm : m.masterLock = false)
    (hq : Linked lockid k) :
    (∃ t, unlock env lockid m = .event (.unlock lockid, m) (.ret 0 t) ∧ t.masterLock = false ∧
      InHeap t (Locking.unlock env.pid lockid k)) ∨
    ∃ m1 k1 a go, unlock env lockid m = .event (.unlock lockid, m) (.call (.free a) m1 go) ∧ InHeap m1 k1 ∧
      ∀ v t, InHeap t (Locking.kfree a k1) → t.masterLock = m1.masterLock → ∃ t', go v t = .ret 0 t' ∧
        t'.masterLock = false ∧ InHeap t' (Locking.unlock env.pid lockid k) := by
  unfold unlock
  rw [if_neg hid, spinLock_free hm]
  dsimp only
  by_cases hhead : (k.locks lockid).head = 0
  · right
    rw [if_pos (by rw [A.locks, hhead])]
    refine ⟨_, k, _, _, rfl, A.hold false, fun v t T ht => ⟨t, rfl, ht, ?_⟩⟩
    have hkfree : Locking.kfree (m.locks lockid).head k = k := by
      rw [A.locks, hhead, Locking.kfree, List.erase_of_not_mem A.nonzero]
    have hunlock : Locking.unlock env.pid lockid k = k := by
      unfold Locking.unlock
      rw [if_neg hid, if_pos hhead]
    rw [hkfree] at T
    rwa [hunlock]
  · obtain ⟨hlive, htail, hnext⟩ := hq hhead
    rw [if_neg (by rw [A.locks]; exact hhead)]
    by_cases hone : (k.locks lockid).head = (k.locks lockid).tail
    · right
      rw [if_pos (by rw [A.locks, hone])]
      refine ⟨_, Locking.setQueue lockid ⟨0, 0⟩ k, _, _, rfl, A.setQueue.hold false, fun v t T ht =>
        ⟨t, rfl, ht, ?_⟩⟩
      have hunlock : Locking.unlock env.pid lockid k =
          Locking.kfree (k.locks lockid).head (Locking.setQueue lockid ⟨0, 0⟩ k) := by
        unfold Locking.unlock
        rw [if_neg hid, if_neg hhead, if_pos hone]
      rwa [hunlock, ← A.locks]
    · have hown : Machine.recordPid { m with masterLock := true } (m.locks lockid).head = Locking.headPid lockid k :=
        A.headPid hlive
      rw [if_neg (by rw [A.locks]; exact hone), hown]
      by_cases hown : Locking.headPid lockid k = env.pid
      · right
        have hlink : Machine.recordNext { m with masterLock := true } (m.locks lockid).head =
            (k.record (k.locks lockid).head).next := by
          rw [A.locks]
          exact (A.next_eq hlive).symm
        rw [if_pos hown, hlink, A.locks]
        refine ⟨_, Locking.setQueue lockid ⟨(k.record (k.locks lockid).head).next, (k.locks lockid).tail⟩ k,
          _, _, rfl, (A.hold true).setQueue, fun v t T _ => ?_⟩
        generalize hk1 : Locking.kfree _ _ = k1 at T
        have hhead1 : (k1.locks lockid).head = (k.record (k.locks lockid).head).next := by
          rw [← hk1]
          exact congrArg LockQueue.head (upd_same k.locks lockid _)
        have hlive1 : (k1.locks lockid).head ∈ k1.live := by
          rw [hhead1, ← hk1]
          exact hnext hone
        have hunlock : Locking.unlock env.pid lockid k =
            Locking.changeTaskStatus (Locking.headPid lockid k1) 0 k1 := by
          unfold Locking.unlock
          rw [if_neg hid, if_neg hhead, if_neg hone, if_pos hown, ← hk1]
        rw [hunlock]
        exact T.wakeHead hlive1
      · left
        rw [if_neg hown]
        have hunlock : Locking.unlock env.pid lockid k =
            Locking.changeTaskStatus (Locking.headPid lockid k) 0 k := by
          unfold Locking.unlock
          rw [if_neg hid, if_neg hhead, if_neg hone, if_neg hown]
        obtain ⟨t, ht, hfree, T⟩ := (A.hold true).wakeHead hlive
        rw [hunlock]
        exact ⟨t, congrArg (Code.event _) ht, hfree, T⟩

/-- Calls of `lock` and `unlock` that all return. -/
def Passes (env : Env σ) : List Section → Machine σ → Machine σ → Prop
  | [], m, u => u = m
  | .lock :: l, m, u =>
    ∃ n v t, Yields (body env) (body env n (.lock env.monitorLock) m) v t ∧ Passes env l t u
  | .unlock :: l, m, u =>
    ∃ n v t, Yields (body env) (body env n (.unlock env.monitorLock) m) v t ∧ Passes env l t u

/-- A character. -/
theorem putchar_passes {l : List Section} {u : Machine σ} :
    Passes env (.lock :: .unlock :: l) m u ↔
      ∃ n v t, Yields (body env) (body env n .putchar m) v t ∧ Passes env l t u := by
  constructor
  · rintro ⟨n, v, t, h1, n', v', t', h2, h⟩
    exact ⟨0, v', t', .call h1 (.call h2 .ret), h⟩
  · rintro ⟨n, v, t, h, hl⟩
    obtain ⟨n1, v1, t1, h1, h⟩ := yields_call.1 h
    obtain ⟨n2, v2, t2, h2, h⟩ := yields_call.1 h
    obtain ⟨-, rfl⟩ := yields_ret.1 h
    exact ⟨n1, v1, t1, h1, n2, v2, t, h2, hl⟩

/-- The characters of the string. -/
theorem putchars_passes {str : List Char} {u : Machine σ} : (∃ v, Yields (body env) (putchars env str m) v u) ↔
    Passes env ((str.flatMap fun _ => [.lock, .unlock]) ++ [.unlock]) m u := by
  induction str generalizing m with
  | nil =>
    constructor
    · rintro ⟨v, h⟩
      obtain ⟨n, v', t, h, hret⟩ := yields_call.1 h
      obtain ⟨-, rfl⟩ := yields_ret.1 hret
      exact ⟨n, v', u, h, rfl⟩
    · rintro ⟨n, v, t, h, rfl⟩
      exact ⟨v, .call h .ret⟩
  | cons c str ih =>
    rw [List.flatMap_cons, List.append_assoc, List.cons_append, List.cons_append, List.nil_append, putchar_passes]
    constructor
    · rintro ⟨v, h⟩
      obtain ⟨n, v', t, h, hrest⟩ := yields_call.1 h
      exact ⟨n, v', t, h, ih.1 ⟨v, hrest⟩⟩
    · rintro ⟨n, v, t, h, hrest⟩
      obtain ⟨v', hrest⟩ := ih.2 hrest
      exact ⟨v', .call h hrest⟩

/-- **`puts`** makes these calls. -/
theorem puts_passes {str : String} {u : Machine σ} : (∃ v, Yields (body env) (puts env str m) v u) ↔
    Passes env (putsSections str.toList) m u := by
  constructor
  · rintro ⟨v, h⟩
    obtain ⟨n, v', t, h, hrest⟩ := yields_call.1 h
    exact ⟨n, v', t, h, putchars_passes.1 ⟨v, hrest⟩⟩
  · rintro ⟨n, v, t, h, hrest⟩
    obtain ⟨v', hrest⟩ := putchars_passes.2 hrest
    exact ⟨v', .call h hrest⟩

end

end MasterLock

namespace Kheap

open Lib Locking

/-- The process finds the lock of the monitor as it is in `k`, where no other process waits for it. -/
structure InOs {σ : Type} (os : Os σ) (k : Kernel) : Prop extends InBytes os.heap k where
  monitor : k.locks os.monitorLock = ⟨os.head, os.head⟩

section
variable {σ : Type} {call : Call → Os σ → Trace (Nat × Os σ)} {os : Os σ} {k : Kernel}

/-- A new record. -/
theorem newLock_result {lck : Nat} {t : Os σ} (h : (call (.alloc 16 0) os).result = some (lck, t)) :
    (newLock call os).result = some (lck, { t with
      heap := onMem (fun m => (m.store lck 8 t.pid).store (lck + 8) 8 0) t.heap }) := by
  unfold newLock kmalloc
  rw [if_neg (by decide)]
  unfold Trace.bind
  rw [h]
  rfl

/-- **`lock`** returns at once, or asks for a record and goes on as `Locking.lock` does; who has to wait
does not return. -/
theorem lock_refines (A : InOs os k) (hid : os.monitorLock ≠ -1) (hm : os.masterLock = false)
    (hlive : os.head ≠ 0 → os.head ∈ k.live) (hpid : os.pid < 2 ^ 64) :
    ((∀ lck, Locking.lock os.pid os.monitorLock lck k = (true, k)) ∧ lock call os = .ok os) ∨
    ∀ lck t, (call (.alloc 16 0) { os with masterLock := true }).result = some (lck, t) → InOs t k →
      t.monitorLock = os.monitorLock → t.pid = os.pid → Fresh lck k →
      let r := Locking.lock os.pid os.monitorLock lck k
      if r.1 then ∃ t', (lock call os).result = some t' ∧ InOs t' r.2 else (lock call os).result = none := by
  have hhead : (k.locks os.monitorLock).head = os.head := congrArg LockQueue.head A.monitor
  unfold lock
  rw [if_neg hid, if_neg (by rw [hm]; exact Bool.false_ne_true)]
  by_cases h0 : os.head = 0
  · right
    intro lck t hcall T hreg hself hf
    dsimp only
    rw [lock_empty hid (hhead.trans h0), if_pos h0, if_pos rfl]
    unfold Trace.bind
    rw [newLock_result hcall]
    have R := T.newLock hf hpid
    rw [← hself] at R ⊢
    refine ⟨_, rfl, ⟨R.record, R.apart, R.nonzero⟩, ?_⟩
    show upd k.locks os.monitorLock ⟨lck, lck⟩ t.monitorLock = _
    rw [hreg, upd_same]
  · have hne : (k.locks os.monitorLock).head ≠ 0 := fun h => h0 (hhead.symm.trans h)
    have hown : os.heap.mem.load os.head 8 = headPid os.monitorLock k := by
      rw [headPid, hhead]
      exact (A.pid (hlive h0)).symm
    rw [if_neg h0, hown]
    by_cases hself : headPid os.monitorLock k = os.pid
    · left
      rw [if_pos hself]
      exact ⟨fun lck => lock_again hid hne hself, rfl⟩
    · right
      intro lck t hcall T hreg hpid' hf
      dsimp only
      rw [lock_wait hid hne hself, if_neg hself, if_neg Bool.false_ne_true]
      unfold Trace.bind
      rw [newLock_result hcall]
      rfl

/-- Calls of `lock` and `unlock`. -/
def runSections (call : Call → Os σ → Trace (Nat × Os σ)) : List Section → Os σ → Trace (Os σ)
  | [], os => .ok os
  | .lock :: l, os => (lock call os).bind (runSections call l)
  | .unlock :: l, os => (unlock call os).bind (runSections call l)

theorem Trace.bind_assoc {α β γ : Type} (r : Trace α) (f : α → Trace β) (g : β → Trace γ) :
    (r.bind f).bind g = r.bind fun a => (f a).bind g := by
  unfold Trace.bind
  cases r.result with
  | none => rfl
  | some a =>
    dsimp only
    cases (f a).result with
    | none => rfl
    | some b =>
      dsimp only
      rw [List.append_assoc]

theorem Trace.bind_ok {α : Type} (r : Trace α) : r.bind .ok = r := by
  unfold Trace.bind
  obtain ⟨started, result⟩ := r
  cases result with
  | none => rfl
  | some a => exact congrArg (Trace.mk · (some a)) (List.append_nil started)

theorem putchars_sections (str : List Char) (os : Os σ) : (putchars call str os).bind (unlock call) =
    runSections call ((str.flatMap fun _ => [.lock, .unlock]) ++ [.unlock]) os := by
  induction str generalizing os with
  | nil =>
    show unlock call os = (unlock call os).bind .ok
    exact (Trace.bind_ok _).symm
  | cons c str ih =>
    show ((((lock call os).bind (unlock call)).bind (putchars call str)).bind (unlock call)) = _
    rw [Trace.bind_assoc, Trace.bind_assoc]
    simp only [ih]
    rfl

/-- **`puts`** makes these calls. -/
theorem putsLocked_sections (str : String) (os : Os σ) :
    putsLocked call str os = runSections call (putsSections str.toList) os := by
  unfold putsLocked
  simp only [putchars_sections]
  rfl

/-- **`unlock`** frees the record and does what `Locking.unlock` does. -/
theorem unlock_refines (A : InOs os k) (hid : os.monitorLock ≠ -1) (hm : os.masterLock = false)
    {v : Nat} {t : Os σ} (hcall : (call (.free os.head) { os with head := 0 }).result = some (v, t))
    (T : InOs t (Locking.kfree os.head (setQueue os.monitorLock ⟨0, 0⟩ k))) :
    (unlock call os).result = some t ∧ InOs t (Locking.unlock os.pid os.monitorLock k) := by
  have hhead : (k.locks os.monitorLock).head = os.head := congrArg LockQueue.head A.monitor
  have htail : (k.locks os.monitorLock).tail = os.head := congrArg LockQueue.tail A.monitor
  have hunlock : Locking.unlock os.pid os.monitorLock k =
      Locking.kfree os.head (setQueue os.monitorLock ⟨0, 0⟩ k) := by
    unfold Locking.unlock
    rw [if_neg hid, hhead, htail]
    dsimp only
    by_cases h0 : os.head = 0
    · have hqueue : setQueue os.monitorLock ⟨0, 0⟩ k = k := by
        rw [setQueue, ← h0, ← A.monitor, upd_self]
      rw [if_pos h0, hqueue, h0, Locking.kfree, List.erase_of_not_mem A.nonzero]
    · rw [if_neg h0, if_pos rfl]
  refine ⟨?_, by rwa [hunlock]⟩
  unfold unlock kfree
  rw [if_neg hid, if_neg (by rw [hm]; exact Bool.false_ne_true)]
  unfold Trace.bind
  rw [hcall]
  rfl

end

end Kheap
