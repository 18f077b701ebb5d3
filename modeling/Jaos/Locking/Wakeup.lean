import Jaos.Locking.Exclusion
import Jaos.Locking.Proof.Lists

/-!
# The wake-up of the next owner

The waiting loop of `lock` releases `master_lock` before it calls `change_task_status(self, 1)`, and
the `cli` and `sti` around it are commented out. A process that blocks only then, when the owner has
already made it the head and set its status to 0, sleeps as the owner (`wakeup_lost`). `no_lost_wakeup`
is exact: the runs without such a block (`Late`) are those in which no head process sleeps.

Here `unlock` is two steps, the change of the queue and the wake-up, between which `master_lock` is
held, so that only the blocking of other processes can come between them.
-/

namespace Locking

open Lib

/-- `waking` is the process between the two halves of an `unlock` and the lock. -/
structure Fine where
  sys : Sys
  waking : Option (Nat × Int)

/-- A step of `Act`, where `unlock` is its first half, or the second half of an `unlock`. -/
inductive FineAct
  | act (a : Act)
  | wake

/-- One step of the process `pid`. A process runs only with the status 0. -/
def fineAct (s : Fine) (pid : Nat) (x : FineAct) : Option Fine :=
  if s.sys.kernel.status pid ≠ 0 then none
  else
    match x with
    | .act .block => (act s.sys pid .block).map fun sys => ⟨sys, s.waking⟩
    | .act (.unlock lockid) =>
      -- the three other sections wait for `master_lock`
      if s.waking = none ∧ (s.sys.procs pid).pc = .run ∧
          (s.sys.procs pid).held.head? = some lockid then
        let r := unlockHead pid lockid s.sys.kernel
        some ⟨⟨r.2, upd s.sys.procs pid ((s.sys.procs pid).leave lockid)⟩,
          if r.1 then some (pid, lockid) else none⟩
      else none
    | .act a =>
      if s.waking = none then (act s.sys pid a).map fun sys => ⟨sys, none⟩ else none
    | .wake =>
      match s.waking with
      | some (p, lockid) =>
        if p = pid then some ⟨⟨wake lockid s.sys.kernel, s.sys.procs⟩, none⟩ else none
      | none => none

def FineStep (s : Fine) (x : Nat × FineAct) (s' : Fine) : Prop := fineAct s x.1 x.2 = some s'

def FineInit (s : Fine) : Prop := Init s.sys ∧ s.waking = none

/-- The head of the queue is asleep in the waiting loop and nobody is going to wake it. -/
def Lost (s : Fine) (id : Int) : Prop :=
  (s.sys.kernel.locks id).head ≠ 0 ∧ (s.sys.procs (headPid id s.sys.kernel)).Waits id ∧
    s.sys.kernel.status (headPid id s.sys.kernel) = 1 ∧ ∀ p, s.waking ≠ some (p, id)

/-- The process is past the check of the loop, but it is the head by now, and its wake-up is over. -/
def Late (s : Fine) (pid : Nat) (id : Int) : Prop :=
  (s.sys.procs pid).pc = .block id ∧ (s.sys.kernel.locks id).head ≠ 0 ∧
    headPid id s.sys.kernel = pid ∧ ∀ p, s.waking ≠ some (p, id)

/-- The step is not a late block. -/
def InTime (s : Fine) (x : Nat × FineAct) : Prop :=
  x.2 = .act .block → ∀ id, id ≠ -1 → ¬ Late s x.1 id

/-! ## The invariant -/

/-- Every lock has its list, and no head sleeps. -/
structure Awake (s : Fine) (queues : Int → List Nat) : Prop where
  lists : Lists s.sys.kernel queues
  awake : ∀ id, id ≠ -1 → ¬ Lost s id

section
variable {s s' : Fine} {queues queues' : Int → List Nat} {pid : Nat} {id : Int} {k' : Kernel} {p' : Proc}
  {w' : Option (Nat × Int)}

theorem Awake.init (h : FineInit s) : Awake s fun _ => [] := by
  obtain ⟨⟨hlocks, -⟩, -⟩ := h
  exact ⟨.init hlocks, fun id _ hlost => hlost.1 (by rw [hlocks id])⟩

/-- A step that sets no status but to 0 and moves no process into a waiting loop in which it is the
head makes no head sleep. -/
theorem Awake.step_of (h : Awake s queues) (hl : Lists k' queues')
    (hstatus : ∀ p, k'.status p = 1 → s.sys.kernel.status p = 1)
    (hhead : ∀ id, id ≠ -1 → (k'.locks id).head ≠ 0 → (upd s.sys.procs pid p' (headPid id k')).Waits id →
      (∀ p, w' ≠ some (p, id)) → (s.sys.kernel.locks id).head ≠ 0 ∧
        headPid id s.sys.kernel = headPid id k' ∧ (s.sys.procs (headPid id k')).Waits id ∧
        ∀ p, s.waking ≠ some (p, id)) :
    Awake ⟨⟨k', upd s.sys.procs pid p'⟩, w'⟩ queues' := by
  refine ⟨hl, fun id hid hlost => ?_⟩
  obtain ⟨h0, hw, h1, hno⟩ := hlost
  obtain ⟨h0', heq, hw', hno'⟩ := hhead id hid h0 hw hno
  refine h.awake id hid ⟨h0', ?_, ?_, hno'⟩
  · rw [heq]
    exact hw'
  · rw [heq]
    exact hstatus _ h1

/-- The head of a list that gets a record at its end. -/
theorem Appended.head {self lck : Nat} {k : Kernel} (L : Lists k queues) (hid : id ≠ -1)
    (h : Appended k queues id self lck k') {i : Int} (hi : i ≠ -1) (hq : queues i ≠ []) :
    (k.locks i).head ≠ 0 ∧ headPid i k' = headPid i k := by
  obtain ⟨a, l, hal⟩ := List.exists_cons_of_ne_nil hq
  have hold := L.listed i hi
  have hnew := h.lists.listed i hi
  rw [hal] at hold
  have hnew' : ∃ m, Listed k' i (a :: m) := by
    by_cases he : i = id
    · subst he
      rw [upd_same, hal] at hnew
      exact ⟨l ++ [lck], hnew⟩
    · rw [upd_ne _ _ he, hal] at hnew
      exact ⟨l, hnew⟩
  obtain ⟨m, hm⟩ := hnew'
  refine ⟨fun h0 => ?_, ?_⟩
  · have := hold.empty_iff.1 h0
    cases this
  · rw [hm.head.2, hold.head.2]
    exact h.old a (hold.live a List.mem_cons_self)

theorem Awake.lock {lck : Nat} (h : Awake s queues) (hw : s.waking = none) (hlck : lck ≠ 0)
    (hfresh : lck ∉ s.sys.kernel.live) :
    ∃ queues', Awake ⟨⟨(lock pid id lck s.sys.kernel).2, upd s.sys.procs pid
      (if (lock pid id lck s.sys.kernel).1 then (s.sys.procs pid).enter id
      else { s.sys.procs pid with pc := .check id })⟩, none⟩ queues' := by
  have hnone : ∀ i p, s.waking ≠ some (p, i) := by simp [hw]
  rcases h.lists.lock_cases pid id hlck hfresh with ⟨hsame, -⟩ | ⟨hid, happ, hret⟩
  · rw [hsame, if_pos rfl]
    refine ⟨queues, h.step_of h.lists (fun _ h1 => h1) fun i hi h0 hwait _ => ⟨h0, rfl, ?_, hnone i⟩⟩
    by_cases hp : headPid i s.sys.kernel = pid
    · rw [hp, upd_same] at hwait
      exact absurd hwait (Proc.not_waits rfl)
    · rwa [upd_ne _ _ hp] at hwait
  · refine ⟨_, h.step_of happ.lists (fun p h1 => by rwa [happ.status] at h1)
      fun i hi h0 hwait _ => ?_⟩
    have hnewhead := fun hq => Appended.head h.lists hid happ hi hq
    rcases hret with ⟨hq, hr⟩ | ⟨hq, hne, hr⟩
    · rw [hr, if_pos rfl] at hwait
      -- the new head is not in the loop
      have hself : headPid i (Locking.lock pid id lck s.sys.kernel).2 ≠ pid := by
        intro hp
        rw [hp, upd_same] at hwait
        exact absurd hwait (Proc.not_waits rfl)
      have hqi : queues i ≠ [] := by
        intro hqi
        have hl := happ.lists.listed i hi
        by_cases he : i = id
        · subst he
          rw [upd_same, hq, List.nil_append] at hl
          exact hself (hl.head.2.trans happ.new)
        · rw [upd_ne _ _ he, hqi] at hl
          exact h0 (hl.empty_iff.2 rfl)
      rw [upd_ne _ _ hself] at hwait
      exact ⟨(hnewhead hqi).1, (hnewhead hqi).2.symm, hwait, hnone i⟩
    · rw [hr] at hwait
      have hqi : queues i ≠ [] := by
        intro hqi
        have hl := happ.lists.listed i hi
        have he : i ≠ id := fun he => hq (he ▸ hqi)
        rw [upd_ne _ _ he, hqi] at hl
        exact h0 (hl.empty_iff.2 rfl)
      refine ⟨(hnewhead hqi).1, (hnewhead hqi).2.symm, ?_, hnone i⟩
      by_cases hp : headPid i (Locking.lock pid id lck s.sys.kernel).2 = pid
      · -- the process would wait for the lock of which it is the head
        rw [hp, upd_same] at hwait
        have he : id = i := by simpa [Proc.Waits] using hwait
        exact absurd (he ▸ (hnewhead hqi).2.symm.trans hp) hne
      · rwa [upd_ne _ _ hp] at hwait

theorem Awake.check (h : Awake s queues) (hw : s.waking = none)
    (hpc : (s.sys.procs pid).pc = .check id) :
    Awake ⟨⟨s.sys.kernel, upd s.sys.procs pid
      (if headPid id s.sys.kernel = pid then (s.sys.procs pid).enter id
      else { s.sys.procs pid with pc := .block id })⟩, none⟩ queues := by
  refine h.step_of h.lists (fun _ h1 => h1) fun i hi h0 hwait _ => ⟨h0, rfl, ?_, by simp [hw]⟩
  by_cases hp : headPid i s.sys.kernel = pid
  · rw [hp, upd_same] at hwait
    rw [hp]
    split at hwait
    · exact absurd hwait (Proc.not_waits rfl)
    · have he : id = i := by simpa [Proc.Waits] using hwait
      exact .inl (he ▸ hpc)
  · rwa [upd_ne _ _ hp] at hwait

theorem Awake.block (h : Awake s queues) (hpc : (s.sys.procs pid).pc = .block id)
    (hlate : ∀ i, i ≠ -1 → ¬ Late s pid i) :
    Awake ⟨⟨changeTaskStatus pid 1 s.sys.kernel,
      upd s.sys.procs pid { s.sys.procs pid with pc := .check id }⟩, s.waking⟩ queues := by
  refine ⟨h.lists.status _, fun i hi hlost => ?_⟩
  obtain ⟨h0, hwait, h1, hno⟩ := hlost
  dsimp only [changeTaskStatus] at h0 hwait h1
  by_cases hp : headPid i s.sys.kernel = pid
  · rw [show headPid i { s.sys.kernel with status := upd s.sys.kernel.status pid 1 } = pid from hp,
      upd_same] at hwait
    have he : id = i := by simpa [Proc.Waits] using hwait
    exact hlate i hi ⟨he ▸ hpc, h0, hp, hno⟩
  · refine h.awake i hi ⟨h0, ?_, ?_, hno⟩
    · exact (upd_ne s.sys.procs _ hp).symm ▸ hwait
    · exact (upd_ne s.sys.kernel.status 1 hp).symm.trans h1

theorem Awake.unlock (h : Awake s queues) (hw : s.waking = none)
    (hrun : (s.sys.procs pid).pc = .run) :
    ∃ queues', Awake ⟨⟨(unlockHead pid id s.sys.kernel).2,
      upd s.sys.procs pid ((s.sys.procs pid).leave id)⟩,
      if (unlockHead pid id s.sys.kernel).1 then some (pid, id) else none⟩ queues' := by
  have hnone : ∀ i p, s.waking ≠ some (p, i) := by simp [hw]
  obtain ⟨hrec, hstatus, hcases⟩ := h.lists.unlock_cases pid id
  have hleave : ∀ i p, (upd s.sys.procs pid ((s.sys.procs pid).leave id) p).Waits i →
      (s.sys.procs p).Waits i := by
    intro i p hp
    by_cases he : p = pid
    · rw [he, upd_same] at hp
      exact absurd hp (Proc.not_waits hrun)
    · rwa [upd_ne _ _ he] at hp
  -- the lists of the other locks, and that of this one if it is left to the wake-up
  have hmove : ∀ queues', Lists (unlockHead pid id s.sys.kernel).2 queues' →
      (∀ i, i ≠ -1 → ((unlockHead pid id s.sys.kernel).2.locks i).head ≠ 0 →
        (unlockHead pid id s.sys.kernel).1 = true ∧ i = id ∨ queues' i = queues i) →
      ∃ queues', Awake ⟨⟨(unlockHead pid id s.sys.kernel).2,
        upd s.sys.procs pid ((s.sys.procs pid).leave id)⟩,
        if (unlockHead pid id s.sys.kernel).1 then some (pid, id) else none⟩ queues' := by
    intro queues' hl hsame
    refine ⟨queues', h.step_of hl (fun p h1 => by rwa [hstatus] at h1) fun i hi h0 hwait hno => ?_⟩
    rcases hsame i hi h0 with ⟨hr, rfl⟩ | hq
    · rw [hr, if_pos rfl] at hno
      exact absurd rfl (hno pid)
    · have hnew := hl.listed i hi
      have hold := h.lists.listed i hi
      rw [hq] at hnew
      have hhead : (s.sys.kernel.locks i).head = ((unlockHead pid id s.sys.kernel).2.locks i).head := by
        cases hqi : queues i with
        | nil => exact absurd (hnew.empty_iff.2 hqi) h0
        | cons a l =>
          rw [hqi] at hnew hold
          rw [hold.head.1, hnew.head.1]
      have hpid : headPid i s.sys.kernel = headPid i (unlockHead pid id s.sys.kernel).2 := by
        unfold headPid
        rw [hhead, hrec]
      exact ⟨by rwa [hhead], hpid, hleave i _ hwait, hnone i⟩
  rcases hcases with ⟨-, hsame⟩ | ⟨hid, a, l, hq, ⟨-, -, hl⟩ | ⟨-, -, hr, hl⟩ | ⟨-, -, hsame⟩⟩
  · exact hmove queues (by rw [hsame]; exact h.lists) fun i _ _ => .inr rfl
  · refine hmove _ hl fun i hi h0 => .inr ?_
    by_cases he : i = id
    · -- this lock is free now
      subst he
      have := hl.listed i hi
      rw [upd_same] at this
      exact absurd (this.empty_iff.2 rfl) h0
    · exact upd_ne _ _ he
  · refine hmove _ hl fun i hi h0 => ?_
    by_cases he : i = id
    · exact .inl ⟨hr, he⟩
    · exact .inr (upd_ne _ _ he)
  · exact hmove queues (by rw [hsame]; exact h.lists) fun i _ _ => .inr rfl

theorem Awake.wake (h : Awake s queues) (hw : s.waking = some (pid, id)) :
    Awake ⟨⟨wake id s.sys.kernel, s.sys.procs⟩, none⟩ queues := by
  refine ⟨h.lists.status _, fun i hi hlost => ?_⟩
  obtain ⟨h0, hwait, h1, -⟩ := hlost
  dsimp only [Locking.wake, changeTaskStatus] at h0 hwait h1
  by_cases hp : headPid i s.sys.kernel = headPid id s.sys.kernel
  · rw [show headPid i { s.sys.kernel with
      status := upd s.sys.kernel.status (headPid id s.sys.kernel) 0 } = headPid id s.sys.kernel from hp,
      upd_same] at h1
    cases h1
  · -- the head of another lock, awake as before
    refine h.awake i hi ⟨h0, hwait, (upd_ne s.sys.kernel.status 0 hp).symm.trans h1, fun p hp' => ?_⟩
    rw [hw] at hp'
    cases hp'
    exact hp rfl

/-- **Every step but a late block keeps the heads awake.** -/
theorem Awake.step {x : Nat × FineAct} (h : Awake s queues) (hstep : FineStep s x s')
    (hok : InTime s x) : ∃ queues', Awake s' queues' := by
  obtain ⟨pid, x⟩ := x
  unfold FineStep fineAct at hstep
  dsimp only at hstep
  split at hstep
  · cases hstep
  split at hstep
  · obtain ⟨sys, hs, rfl⟩ := Option.map_eq_some_iff.1 hstep
    unfold act at hs
    dsimp only at hs
    split at hs
    · rename_i hpc
      cases hs
      exact ⟨queues, h.block hpc (hok rfl)⟩
    · cases hs
  · split at hstep
    · rename_i hc
      cases hstep
      exact h.unlock hc.1 hc.2.1
    · cases hstep
  · rename_i a hblock hunlock
    split at hstep
    · rename_i hw
      obtain ⟨sys, hs, rfl⟩ := Option.map_eq_some_iff.1 hstep
      unfold act at hs
      cases a with
      | lock lockid lck =>
        dsimp only at hs
        split at hs
        · rename_i hc
          cases hs
          exact h.lock hw hc.2.1 hc.2.2
        · cases hs
      | check =>
        dsimp only at hs
        split at hs
        · rename_i hpc
          cases hs
          exact ⟨queues, h.check hw hpc⟩
        · cases hs
      | block => exact absurd rfl hblock
      | unlock lockid => exact absurd rfl (hunlock lockid)
    · cases hstep
  · split at hstep
    · rename_i p lockid hw
      split at hstep
      · cases hstep
        exact ⟨queues, h.wake hw⟩
      · cases hstep
    · cases hstep

/-- A late block puts the head to sleep. -/
theorem Late.lost (h : Late s pid id) (hstep : FineStep s (pid, .act .block) s') : Lost s' id := by
  obtain ⟨hpc, h0, hp, hno⟩ := h
  unfold FineStep fineAct at hstep
  dsimp only at hstep
  split at hstep
  · cases hstep
  obtain ⟨sys, hs, rfl⟩ := Option.map_eq_some_iff.1 hstep
  unfold act at hs
  dsimp only at hs
  rw [hpc] at hs
  cases hs
  have hhead : headPid id (changeTaskStatus pid 1 s.sys.kernel) = pid := hp
  refine ⟨h0, ?_, ?_, hno⟩
  · dsimp only
    rw [hhead, upd_same]
    exact .inl rfl
  · dsimp only
    rw [hhead]
    exact upd_same s.sys.kernel.status pid 1

/-- **No lost wake-up** in a run without late blocks, and then exactly the late blocks lose one. -/
theorem no_lost_wakeup (h : Reach FineInit (fun s x s' => FineStep s x s' ∧ InTime s x) s) :
    (∀ id, id ≠ -1 → ¬ Lost s id) ∧
      ∀ x s', FineStep s x s' → ((∀ id, id ≠ -1 → ¬ Lost s' id) ↔ InTime s x) := by
  obtain ⟨queues, hawake⟩ := h.invariant (P := fun s => ∃ queues, Awake s queues)
    (fun s hs => ⟨_, .init hs⟩) fun s x s' ⟨queues, hs⟩ hx => hs.step hx.1 hx.2
  refine ⟨hawake.awake, fun x s' hstep => ⟨fun hno => ?_, fun hok => ?_⟩⟩
  · rintro hx id hid hlate
    obtain ⟨pid, x⟩ := x
    dsimp only at hx hlate
    subst hx
    exact hno id hid (hlate.lost hstep)
  · obtain ⟨queues', h'⟩ := hawake.step hstep hok
    exact h'.awake

end

/-! ## Two runs -/

theorem fineInit_idle : FineInit ⟨idle, none⟩ := ⟨init_idle, rfl⟩

/-- The test for `InTime`. -/
def inTime (s : Fine) : Nat × FineAct → Bool
  | (pid, .act .block) =>
    match (s.sys.procs pid).pc with
    | .block id => decide ((s.sys.kernel.locks id).head = 0 ∨ headPid id s.sys.kernel ≠ pid)
    | _ => true
  | _ => true

def testedFine (s : Fine) (x : Nat × FineAct) : Option Fine :=
  if inTime s x then fineAct s x.1 x.2 else none

theorem testedFine_step {x : Nat × FineAct} {s s' : Fine} (h : testedFine s x = some s') :
    FineStep s x s' ∧ InTime s x := by
  unfold testedFine at h
  split at h
  · rename_i ht
    refine ⟨h, fun hx id hid hlate => ?_⟩
    obtain ⟨pid, x⟩ := x
    dsimp only at hx hlate
    subst hx
    obtain ⟨hpc, h0, hp, -⟩ := hlate
    unfold inTime at ht
    dsimp only at ht
    rw [hpc] at ht
    rcases of_decide_eq_true ht with hz | hne
    · exact h0 hz
    · exact hne hp
  · cases h

/-- Process 2 waits for process 1, blocks and is woken. -/
theorem no_lost_wakeup_run : ∃ s, runList testedFine [(1, .act (.lock 0 16)), (2, .act (.lock 0 32)),
      (2, .act .check), (2, .act .block), (1, .act (.unlock 0)), (1, .wake)] ⟨idle, none⟩ = some s ∧
    headPid 0 s.sys.kernel = 2 ∧ (∀ id, id ≠ -1 → ¬ Lost s id) := by
  have hrun : (runList testedFine [(1, .act (.lock 0 16)), (2, .act (.lock 0 32)),
      (2, .act .check), (2, .act .block), (1, .act (.unlock 0)), (1, .wake)] ⟨idle, none⟩).map
      (fun s => headPid 0 s.sys.kernel) = some 2 := by decide
  obtain ⟨s, hs, hp⟩ := Option.map_eq_some_iff.1 hrun
  exact ⟨s, hs, hp, (no_lost_wakeup
    (.of_list (fun _ _ _ => testedFine_step) (.start fineInit_idle) hs)).1⟩

/-- **A wake-up is lost**: process 2 is interrupted between the check and its block, process 1 unlocks
and wakes it, and then it blocks. -/
theorem wakeup_lost : ∃ s, Reach FineInit FineStep s ∧ Lost s 0 := by
  have hrun : (runList (fun s x => fineAct s x.1 x.2) [(1, .act (.lock 0 16)),
      (2, .act (.lock 0 32)), (2, .act .check), (1, .act (.unlock 0)), (1, .wake), (2, .act .block)]
      ⟨idle, none⟩).map (fun s => ((s.sys.kernel.locks 0).head, headPid 0 s.sys.kernel,
        (s.sys.procs 2).pc, s.sys.kernel.status 2, s.waking.isNone)) = some (32, 2, .check 0, 1, true) := by
    decide
  obtain ⟨s, hs, h⟩ := Option.map_eq_some_iff.1 hrun
  simp only [Prod.mk.injEq] at h
  obtain ⟨h0, hp, hpc, h1, hw⟩ := h
  refine ⟨s, .of_list (fun _ _ _ h => h) (.start fineInit_idle) hs, ?_, ?_, ?_, ?_⟩
  · rw [h0]
    decide
  · rw [hp]
    exact .inl hpc
  · rw [hp]
    exact h1
  · rw [Option.isNone_iff_eq_none.1 hw]
    exact fun _ => nofun

end Locking
