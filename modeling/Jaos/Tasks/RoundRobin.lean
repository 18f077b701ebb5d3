import Jaos.Tasks.Proof.TaskList

/-!
# Round robin

`scheduler_init` and `add_task` build a list of tasks with the pids from 0 on (`Built`). `Turn s l t`:
`t` are the tasks of the list `l` in the order in which they come after the current one, with that one
last. One round of the loop of `switch_task` moves the first task of `t` to its end (`Turn.next`), so a
selection cuts `t` at its first ready task (`Turn.switchTask`), and as many selections as there are
ready tasks go once through them (`Turn.selections`, `round_robin`).
-/

namespace Tasks

open Lib

/-- `scheduler_init`; `newTask` is the address that `kmalloc` returns. -/
def schedulerInit (newTask : Nat) (s : Sched) : Sched :=
  { task := upd s.task newTask ⟨s.nextPid, 0, 0⟩
    taskList := newTask
    current := newTask
    nextPid := s.nextPid + 1
    live := [newTask] }

/-- The state after `scheduler_init` and some calls of `add_task`, and its list. The callers of
`add_task` clear the `next` of the record first, as `fork` does here. -/
inductive Built : Sched → List Nat → Prop
  | init {s : Sched} {newTask : Nat} : s.nextPid = 0 → newTask ≠ 0 →
      Built (schedulerInit newTask s) [newTask]
  | add {s s' : Sched} {l : List Nat} {fuel newTask : Nat} : Built s l → newTask ≠ 0 →
      newTask ∉ s.live → fork fuel newTask s = some s' → Built s' (l ++ [newTask])

/-- Any statuses, and any task running. -/
def Sched.assign (status : Nat → Nat) (current : Nat) (s : Sched) : Sched :=
  { s with task := fun a => { s.task a with status := status a }, current }

/-- The tasks that `n` calls of `switch_task` select. -/
def selections (fuel : Nat) : (n : Nat) → Sched → Option (List Nat)
  | 0, _ => some []
  | n + 1, s => (switchTask fuel s).bind fun s => (selections fuel n s).map (s.current :: ·)

/-- The tasks in the order in which they come after the current one (module doc). -/
def Turn (s : Sched) (l t : List Nat) : Prop :=
  ∃ x y, l = x ++ s.current :: y ∧ t = y ++ x ++ [s.current]

/-- The ready tasks of a list. -/
def Sched.ready (s : Sched) (t : List Nat) : List Nat := t.filter fun a => (s.task a).status = 0

section
variable {s s' : Sched} {l t p q x y : List Nat} {a b c n fuel pid : Nat}

theorem Built.taskList (h : Built s l) : TaskList s l := by
  induction h with
  | @init s newTask hpid h0 =>
    refine ⟨⟨rfl, h0, ?_⟩, ?_, List.mem_singleton.2 rfl, fun a => Iff.rfl⟩
    · simp [schedulerInit]
    · simp [schedulerInit, hpid, List.range_succ]
  | add _ h0 hfresh hrun ih => exact (ih.fork (f := fun _ => 0) h0 hfresh hrun).1

theorem TaskList.assign (hl : TaskList s l) (hc : c ∈ l) (status : Nat → Nat) :
    TaskList (s.assign status c) l :=
  ⟨hl.chain.congr fun _ _ => rfl, hl.pids, hc, hl.live⟩

theorem mem_ready : a ∈ s.ready t ↔ a ∈ t ∧ (s.task a).status = 0 := by
  simp [Sched.ready]

/-! ## A selection -/

theorem Turn.perm (h : Turn s l t) : t.Perm l := by
  obtain ⟨x, y, rfl, rfl⟩ := h
  rw [List.append_assoc]
  exact List.perm_append_comm.trans (by simp)

/-- **The loop goes on to the first task of the turn**, which comes last then. -/
theorem Turn.next (hl : TaskList s l) (h : Turn s l (b :: t)) :
    s.nextTask = b ∧ Turn { s with current := b } l (t ++ [b]) := by
  obtain ⟨x, y, hxy, ht⟩ := h
  have hc : Chain (fun a => (s.task a).next) (s.task s.current).next y := by
    have hchain := hl.chain
    rw [hxy] at hchain
    exact hchain.after
  unfold Sched.nextTask
  cases y with
  | cons d y =>
    -- the task behind the current one
    obtain ⟨rfl, rfl⟩ := List.cons.inj ht
    refine ⟨by rw [if_neg (by rw [hc.1]; exact hc.2.1), hc.1], x ++ [s.current], y, ?_, ?_⟩
    · simp [hxy]
    · simp
  | nil =>
    -- the first one of the list
    rw [if_pos (chain_nil.1 hc)]
    cases x with
    | nil =>
      obtain ⟨rfl, rfl⟩ := List.cons.inj ht
      rw [hxy] at hl
      exact ⟨hl.chain.1, [], [], hxy, rfl⟩
    | cons d x =>
      obtain ⟨rfl, rfl⟩ := List.cons.inj ht
      rw [hxy] at hl
      exact ⟨hl.chain.1, [], x ++ [s.current], hxy, by simp⟩

/-- **`switch_task` selects the first ready task of the turn.** -/
theorem Turn.switchTask (hl : TaskList s l) (h : Turn s l (p ++ a :: q))
    (hp : ∀ b ∈ p, (s.task b).status ≠ 0) (ha : (s.task a).status = 0) :
    ∃ fuel, Tasks.switchTask fuel s = some { s with current := a } ∧
      Turn { s with current := a } l (q ++ (p ++ [a])) := by
  have key : findReady (p.length + 1) s = some { s with current := a } ∧
      Turn { s with current := a } l (q ++ (p ++ [a])) := by
    induction p generalizing s q with
    | nil =>
      obtain ⟨hnext, h'⟩ := h.next hl
      refine ⟨?_, h'⟩
      rw [List.length_nil, findReady, hnext]
      exact if_neg (not_not_intro ha)
    | cons b p ih =>
      rw [List.cons_append] at h
      obtain ⟨hnext, h'⟩ := h.next hl
      have hb : b ∈ l := hnext ▸ hl.nextTask
      rw [List.append_assoc, List.cons_append] at h'
      obtain ⟨hrun, hturn⟩ :=
        ih (hl.run hb) h' (fun d hd => hp d (List.mem_cons_of_mem _ hd)) ha
      refine ⟨?_, by simpa using hturn⟩
      rw [List.length_cons, findReady, hnext]
      exact (if_pos (hp b List.mem_cons_self)).trans hrun
  refine ⟨p.length + 1, ?_, key.2⟩
  rw [Tasks.switchTask, if_neg (hl.chain.ne_zero hl.current)]
  exact key.1

/-! ## A round -/

theorem selections_mono {fuel' : Nat} {r : List Nat} (h : selections fuel n s = some r)
    (hle : fuel ≤ fuel') : selections fuel' n s = some r := by
  induction n generalizing s r with
  | zero => exact h
  | succ n ih =>
    obtain ⟨s1, h1, h⟩ := Option.bind_eq_some_iff.1 h
    obtain ⟨r', h2, rfl⟩ := Option.map_eq_some_iff.1 h
    rw [selections, switchTask_mono h1 hle, Option.bind_some, ih h2, Option.map_some]

/-- **The selections go through the ready tasks** in the order of the turn. -/
theorem Turn.selections (hl : TaskList s l) (h : Turn s l t) (hn : n ≤ (s.ready t).length) :
    ∃ fuel, Tasks.selections fuel n s = some ((s.ready t).take n) := by
  induction n generalizing s t with
  | zero => exact ⟨0, by rw [List.take_zero]; rfl⟩
  | succ n ih =>
    cases hr : s.ready t with
    | nil =>
      rw [hr] at hn
      cases hn
    | cons a r =>
      obtain ⟨p, q, rfl, hp, ha, hq⟩ := List.filter_eq_cons_iff.1 hr
      have ha0 : (s.task a).status = 0 := of_decide_eq_true ha
      obtain ⟨fuel1, h1, hturn⟩ := h.switchTask hl (fun b hb h0 => hp b hb (decide_eq_true h0)) ha0
      have hal : a ∈ l := h.perm.mem_iff.1 (by simp)
      -- the tasks in front of `a` are not ready, so the ready ones of the next turn are `r` and `a`
      have hnext : Sched.ready { s with current := a } (q ++ (p ++ [a])) = r ++ [a] := by
        have hnone : p.filter (fun a => (s.task a).status = 0) = [] := List.filter_eq_nil_iff.2 hp
        simp [Sched.ready, hq, hnone, ha0]
      rw [hr, List.length_cons] at hn
      obtain ⟨fuel2, h2⟩ := ih (hl.run hal) hturn (by rw [hnext, List.length_append]; omega)
      refine ⟨max fuel1 fuel2, ?_⟩
      rw [hnext, List.take_append_of_le_length (by omega)] at h2
      rw [Tasks.selections, switchTask_mono h1 (Nat.le_max_left _ _), Option.bind_some,
        selections_mono h2 (Nat.le_max_right _ _), Option.map_some, List.take_succ_cons]

/-! ## Pids -/

theorem TaskList.pid_inj (hl : TaskList s l) (ha : a ∈ l) (hb : b ∈ l)
    (he : (s.task a).pid = (s.task b).pid) : a = b := by
  obtain ⟨i, hi, rfl⟩ := List.getElem_of_mem ha
  obtain ⟨j, hj, rfl⟩ := List.getElem_of_mem hb
  have hpid : ∀ k (hk : k < l.length), (s.task l[k]).pid = k := by
    intro k hk
    have hget := List.getElem_of_eq hl.pids (show k < (l.map fun a => (s.task a).pid).length by simpa)
    simpa using hget
  rw [hpid, hpid] at he
  subst he
  rfl

/-- **`change_task_status` changes one record**, the one with the pid. -/
theorem TaskList.changeTaskStatus_eq (hl : TaskList s l) (hp : pid < s.nextPid) (status : Nat) :
    ∃ a ∈ l, (∀ b ∈ l, (s.task b).pid = pid ↔ b = a) ∧ ∃ fuel,
      Tasks.changeTaskStatus fuel pid status s = some (s.setTask a { s.task a with status }) := by
  obtain ⟨a, ha, hpid⟩ := hl.find hp
  have hinj : ∀ b ∈ l, (s.task b).pid = pid ↔ b = a := fun b hb =>
    ⟨fun h => hl.pid_inj hb ha (h.trans hpid.symm), fun h => h ▸ hpid⟩
  obtain ⟨fuel, s', hrun⟩ : ∃ fuel s', Tasks.changeTaskStatus fuel pid status s = some s' :=
    hl.changeTaskStatus_total
  refine ⟨a, ha, hinj, fuel, ?_⟩
  rw [hrun, changeFrom_eq hl.chain hl.nodup hrun]
  unfold withStatus Sched.setTask
  congr 2
  funext b
  by_cases hb : b = a
  · subst hb
    simp [ha, hpid]
  · have hne : ¬ (b ∈ l ∧ (s.task b).pid = pid) := fun h => hb ((hinj b h.1).1 h.2)
    rw [if_neg hne, upd_ne _ _ hb]

theorem TaskList.nextPid_eq (hl : TaskList s l) : s.nextPid = l.length := by
  have := congrArg List.length hl.pids
  rw [List.length_map, List.length_range] at this
  exact this.symm

/-- **Round robin.** Whatever the statuses and the current task `c`, with `x` in front of it in the list
and `y` behind it: as many selections as there are ready tasks go through them once, those behind `c`
first, then those from the head of the list on, `c` last. The pids are 0, 1, 2, .. along the list, and
`change_task_status` changes the record with the pid and no other. -/
theorem round_robin (h : Built s l) (hc : l = x ++ c :: y) (status : Nat → Nat) :
    let s' := s.assign status c
    let ready := s'.ready (y ++ x ++ [c])
    (∃ fuel, selections fuel ready.length s' = some ready) ∧ ready.Nodup ∧
      (∀ a, a ∈ ready ↔ a ∈ l ∧ status a = 0) ∧
      l.map (fun a => (s'.task a).pid) = List.range l.length ∧
      ∀ pid, pid < l.length → ∀ new, ∃ a ∈ l, (∀ b ∈ l, (s'.task b).pid = pid ↔ b = a) ∧
        ∃ fuel, changeTaskStatus fuel pid new s' =
          some (s'.setTask a { s'.task a with status := new }) := by
  have hl : TaskList (s.assign status c) l := h.taskList.assign (by rw [hc]; simp) status
  have hturn : Turn (s.assign status c) l (y ++ x ++ [c]) := ⟨x, y, hc, rfl⟩
  have hsel := hturn.selections hl (Nat.le_refl _)
  rw [List.take_length] at hsel
  refine ⟨hsel, (hturn.perm.nodup_iff.2 hl.nodup).filter _, fun a => ?_, ?_, fun pid hp new => ?_⟩
  · exact mem_ready.trans (and_congr_left fun _ => hturn.perm.mem_iff)
  · rw [← hl.nextPid_eq]
    exact hl.pids
  · exact hl.changeTaskStatus_eq (by rwa [hl.nextPid_eq]) new

end

/-- The static variables before `scheduler_init`. -/
def unscheduled : Sched where
  task := fun _ => ⟨0, 0, 0⟩
  taskList := 0
  current := 0
  nextPid := 0
  live := []

/-- Three tasks, the second one blocked and running: the third is selected, then the first. -/
theorem round_robin_three : ∃ s, Built s [16, 32, 48] ∧
    ∃ fuel, selections fuel 2 (s.assign (fun a => if a = 32 then 1 else 0) 32) = some [48, 16] := by
  obtain ⟨s1, h1⟩ : ∃ s1, fork 2 32 (schedulerInit 16 unscheduled) = some s1 := ⟨_, rfl⟩
  obtain ⟨s2, h2⟩ : ∃ s2, fork 3 48 s1 = some s2 := by
    cases h1
    exact ⟨_, rfl⟩
  have hlive : s1.live = [32, 16] := by
    cases h1
    rfl
  have hbuilt : Built s2 [16, 32, 48] :=
    .add (.add (.init rfl (by decide)) (by decide) (by decide) h1) (by decide) (by simp [hlive]) h2
  refine ⟨s2, hbuilt, ?_⟩
  exact (round_robin hbuilt (x := [16]) (y := [48]) rfl fun a => if a = 32 then 1 else 0).1

end Tasks
