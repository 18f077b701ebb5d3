import Jaos.Locking.Exclusion
import Jaos.Locking.Proof.Lists

/-!
# Waiting processes stay in the queue

A process that has put itself into the queue is there, once, until its own `lock` returns, and an
`unlock` removes no record but that of the caller (`waiters_stay`), as long as no process unlocks a lock
whose only record belongs to another (`Foreign`). The branch of `unlock` for a single record has no test
of the owner: there the process that has just become the head loses its record before it has looked, and
then reads the pid at the null pointer (`waiter_lost`).
-/

namespace Locking

open Lib

/-- The processes in the waiting loop of the lock are in its queue, once each; so the loop reads the pid
of a record. -/
structure Waiting (s : Sys) (id : Int) : Prop where
  once : ∀ p, (s.procs p).Waits id → ∃ q,
    Chain (fun a => (s.kernel.record a).next) (s.kernel.locks id).head q ∧
      (pids s.kernel q).count p = 1
  head : ∀ p, (s.procs p).Waits id → (s.kernel.locks id).head ≠ 0

/-- A process that is not at the head leaves the queue as it is. -/
def RemovesOwn (s : Sys) (pid : Nat) (id : Int) (s' : Sys) : Prop :=
  headPid id s.kernel ≠ pid → ∀ q,
    Chain (fun a => (s.kernel.record a).next) (s.kernel.locks id).head q →
    Chain (fun a => (s'.kernel.record a).next) (s'.kernel.locks id).head q ∧
      pids s'.kernel q = pids s.kernel q

section
variable {s s' : Sys} {id : Int} {q : List Nat} {pid : Nat}

theorem Queue.waiting (h : Queue s id q) : Waiting s id := by
  refine ⟨fun p hp => ?_, fun p hp => ?_⟩
  · obtain ⟨a, ha, rfl⟩ := h.waiter p hp
    exact ⟨q, h.chain, by
      rw [pids, h.nodup.count, if_pos (List.mem_map_of_mem ha)]⟩
  · obtain ⟨a, ha, -⟩ := h.waiter p hp
    exact fun h0 => List.ne_nil_of_mem ha (h.empty_iff.1 h0)

/-- What `unlock` does when it is not foreign and the caller not at the head. -/
theorem removesOwn (hid : id ≠ -1) (hstep : Step s (pid, .unlock id) s')
    (hforeign : ¬ Foreign s pid id) : RemovesOwn s pid id s' := by
  intro hpid q hq
  unfold Step act at hstep
  dsimp only at hstep
  split at hstep
  · cases hstep
    dsimp only
    unfold unlock
    rw [if_neg hid]
    dsimp only
    split
    · exact ⟨hq, rfl⟩
    · rename_i hhead
      rw [if_neg fun ht => hforeign ⟨hid, hhead, ht, hpid⟩]
      exact ⟨hq, rfl⟩
  · cases hstep

/-- **Waiting processes stay queued**, in every run without a foreign `unlock`. -/
theorem waiters_stay (h : Reach Init (fun s x s' => Step s x s' ∧ NotForeign s x) s) :
    (∀ id, id ≠ -1 → Waiting s id) ∧ ∀ pid id s', id ≠ -1 → Step s (pid, .unlock id) s' →
      NotForeign s (pid, .unlock id) → RemovesOwn s pid id s' := by
  obtain ⟨queues, hq, -⟩ :=
    h.invariant (P := Inv) (fun _ => .init) fun _ _ _ inv hs => inv.step hs.1 hs.2
  exact ⟨fun id hid => (hq id hid).waiting, fun pid id s' hid hstep hok =>
    removesOwn hid hstep (hok id rfl)⟩

end

/-- Process 2 waits for process 1. -/
theorem waiters_stay_run : ∃ s, runList tested [(1, .lock 0 16), (2, .lock 0 32)] idle = some s ∧
    (s.procs 2).Waits 0 ∧ Waiting s 0 := by
  have hrun : (runList tested [(1, .lock 0 16), (2, .lock 0 32)] idle).map
      (fun s => (s.procs 2).pc) = some (.check 0) := by decide
  obtain ⟨s, hs, hpc⟩ := Option.map_eq_some_iff.1 hrun
  exact ⟨s, hs, .inl hpc,
    (waiters_stay (.of_list (fun _ _ _ => tested_step) (.start init_idle) hs)).1 0 (by decide)⟩

/-- **A waiting process loses its record**: process 1 leaves the inner section, which makes process 2
the owner, and then the outer one, which removes the only record, that of process 2. -/
theorem waiter_lost : ∃ s, Reach Init Step s ∧ ¬ Waiting s 0 := by
  have hrun : (runList (fun s x => act s x.1 x.2) [(1, .lock 0 16), (1, .lock 0 32),
      (2, .lock 0 32), (1, .unlock 0), (1, .unlock 0)] idle).map
      (fun s => ((s.procs 2).pc, (s.kernel.locks 0).head)) = some (.check 0, 0) := by decide
  obtain ⟨s, hs, h⟩ := Option.map_eq_some_iff.1 hrun
  simp only [Prod.mk.injEq] at h
  exact ⟨s, .of_list (fun _ _ _ h => h) (.start init_idle) hs, fun w => w.head 2 (.inl h.1) h.2⟩

end Locking
