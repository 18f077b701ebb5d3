import Jaos.Tasks.Scheduler

/-!
# The list of tasks

`TaskList s l`: the tasks are the records at `l`, from `task_list` to the null pointer, with the pids
from 0 on in the order of creation. Each function of the scheduler has its specification here: what it
does to the list, and that it ends. `Tracks l f s` reads the status of every task off a function of the
pid, for which `change_task_status` is an update at one pid.
-/

namespace Tasks

open Lib

/-- The records at `l` are the tasks. -/
structure TaskList (s : Sched) (l : List Nat) : Prop where
  chain : Chain (fun a => (s.task a).next) s.taskList l
  pids : l.map (fun a => (s.task a).pid) = List.range s.nextPid
  current : s.current ∈ l
  live : ∀ a, a ∈ l ↔ a ∈ s.live

/-- The status of every task is that of its pid. -/
def Tracks (l : List Nat) (f : Nat → Nat) (s : Sched) : Prop :=
  ∀ a ∈ l, (s.task a).status = f (s.task a).pid

section
variable {s s' : Sched} {l : List Nat} {f : Nat → Nat} {a h fuel pid status newTask tmp : Nat}

theorem TaskList.nodup (hl : TaskList s l) : l.Nodup := by
  have h : (l.map fun a => (s.task a).pid).Nodup := hl.pids ▸ List.nodup_range
  exact (List.pairwise_map.1 h).imp fun hne he => hne (by rw [he])

theorem TaskList.current_pid (hl : TaskList s l) : s.currentPid < s.nextPid := by
  have : s.currentPid ∈ l.map fun a => (s.task a).pid := List.mem_map_of_mem hl.current
  rw [hl.pids] at this
  exact List.mem_range.1 this

/-- Every pid given out has its task. -/
theorem TaskList.find (hl : TaskList s l) (hp : pid < s.nextPid) : ∃ a ∈ l, (s.task a).pid = pid := by
  have : pid ∈ l.map fun a => (s.task a).pid := by
    rw [hl.pids]
    exact List.mem_range.2 hp
  exact List.mem_map.1 this

/-! ## `change_task_status` -/

/-- The records at `l` with the pid have the new status. -/
def withStatus (l : List Nat) (pid status : Nat) (s : Sched) : Sched :=
  { s with task := fun a =>
      if a ∈ l ∧ (s.task a).pid = pid then { s.task a with status } else s.task a }

@[simp] theorem withStatus_pid : ((withStatus l pid status s).task a).pid = (s.task a).pid := by
  unfold withStatus
  dsimp only
  split <;> rfl

@[simp] theorem withStatus_next : ((withStatus l pid status s).task a).next = (s.task a).next := by
  unfold withStatus
  dsimp only
  split <;> rfl

theorem changeFrom_eq (hc : Chain (fun a => (s.task a).next) h l) (hnd : l.Nodup)
    (hrun : changeFrom fuel h pid status s = some s') : s' = withStatus l pid status s := by
  induction l generalizing h fuel s with
  | nil =>
    obtain rfl : h = 0 := hc
    cases fuel with
    | zero => cases hrun
    | succ fuel =>
      rw [changeFrom, if_pos rfl] at hrun
      cases hrun
      simp [withStatus]
  | cons a l ih =>
    obtain ⟨rfl, h0, hc⟩ := hc
    obtain ⟨hal, hnd⟩ := List.nodup_cons.1 hnd
    cases fuel with
    | zero => cases hrun
    | succ fuel =>
      rw [changeFrom, if_neg h0] at hrun
      dsimp only at hrun
      split at hrun
      · rename_i hp
        generalize ht : s.setTask h { s.task h with status } = t at hrun
        have hth : t.task h = { s.task h with status } := by rw [← ht]; exact upd_same _ _ _
        have htb : ∀ b ∈ l, t.task b = s.task b := fun b hb => by
          rw [← ht]
          exact upd_ne _ _ fun he => hal (he ▸ hb)
        rw [show (t.task h).next = (s.task h).next by rw [hth]] at hrun
        rw [ih (hc.congr fun b hb => by rw [htb b hb]) hnd hrun, ← ht]
        unfold withStatus Sched.setTask
        congr 1
        funext b
        dsimp only
        by_cases hb : b = h
        · subst hb
          simp [hal, hp]
        · simp [upd_ne s.task _ hb, hb]
      · rename_i hp
        rw [ih hc hnd hrun]
        unfold withStatus
        congr 1
        funext b
        by_cases hb : b = h
        · subst hb
          simp [hal, hp]
        · simp [hb]

theorem changeFrom_total (hc : Chain (fun a => (s.task a).next) h l) :
    ∃ s', changeFrom (l.length + 1) h pid status s = some s' := by
  induction l generalizing h s with
  | nil =>
    obtain rfl : h = 0 := hc
    exact ⟨s, by rw [changeFrom, if_pos rfl]⟩
  | cons a l ih =>
    obtain ⟨rfl, h0, hc⟩ := hc
    rw [List.length_cons, changeFrom, if_neg h0]
    dsimp only
    split
    · -- the link behind the record is not changed
      generalize ht : s.setTask h { s.task h with status } = t
      have hnext : ∀ b, (t.task b).next = (s.task b).next := by
        intro b
        rw [← ht]
        unfold Sched.setTask upd
        dsimp only
        split
        · rename_i hb
          rw [hb]
        · rfl
      rw [hnext]
      exact ih (hc.congr fun b _ => hnext b)
    · exact ih hc

theorem changeFrom_mono {fuel' : Nat} (hrun : changeFrom fuel h pid status s = some s')
    (hle : fuel ≤ fuel') : changeFrom fuel' h pid status s = some s' := by
  induction fuel generalizing fuel' h s with
  | zero => cases hrun
  | succ fuel ih =>
    obtain ⟨k, rfl⟩ : ∃ k, fuel' = k + 1 := ⟨fuel' - 1, by omega⟩
    rw [changeFrom] at hrun ⊢
    split
    · rename_i h0
      rwa [if_pos h0] at hrun
    · rename_i h0
      rw [if_neg h0] at hrun
      exact ih hrun (by omega)

/-- **`change_task_status`** writes the status of the task with the pid, and nothing else. -/
theorem TaskList.changeTaskStatus (hl : TaskList s l)
    (hrun : changeTaskStatus fuel pid status s = some s') :
    TaskList s' l ∧ s'.current = s.current ∧ s'.nextPid = s.nextPid ∧
      (∀ a, (s'.task a).pid = (s.task a).pid) ∧ (Tracks l f s → Tracks l (upd f pid status) s') := by
  obtain rfl := changeFrom_eq hl.chain hl.nodup hrun
  refine ⟨⟨?_, ?_, hl.current, hl.live⟩, rfl, rfl, fun _ => withStatus_pid, fun ht a ha => ?_⟩
  · exact hl.chain.congr fun b _ => withStatus_next
  · rw [List.map_congr_left fun b _ => withStatus_pid]
    exact hl.pids
  · rw [withStatus_pid]
    unfold withStatus
    dsimp only
    by_cases hp : (s.task a).pid = pid
    · rw [if_pos ⟨ha, hp⟩, hp, upd_same]
    · rw [if_neg fun h => hp h.2, upd_ne _ _ hp]
      exact ht a ha

theorem TaskList.changeTaskStatus_total (hl : TaskList s l) :
    ∃ fuel s', Tasks.changeTaskStatus fuel pid status s = some s' :=
  ⟨_, changeFrom_total hl.chain⟩

/-! ## `add_task` -/

theorem lastTask_eq (hc : Chain (fun a => (s.task a).next) h (l ++ [a]))
    (hrun : lastTask fuel h s = some tmp) : tmp = a := by
  induction l generalizing h fuel with
  | nil =>
    obtain ⟨rfl, -, h0⟩ := hc
    cases fuel with
    | zero => cases hrun
    | succ fuel =>
      rw [lastTask, if_neg (by simpa using h0)] at hrun
      cases hrun
      rfl
  | cons b l ih =>
    obtain ⟨rfl, -, hc⟩ := hc
    cases fuel with
    | zero => cases hrun
    | succ fuel =>
      have hne : (s.task h).next ≠ 0 := fun h0 => by
        have := hc.head_eq_zero.1 h0
        simp at this
      rw [lastTask, if_pos hne] at hrun
      exact ih hc hrun

theorem lastTask_total (hc : Chain (fun a => (s.task a).next) h (l ++ [a])) :
    lastTask (l.length + 1) h s = some a := by
  induction l generalizing h with
  | nil =>
    obtain ⟨rfl, -, h0⟩ := hc
    rw [List.length_nil, lastTask, if_neg (by simpa using h0)]
  | cons b l ih =>
    obtain ⟨rfl, -, hc⟩ := hc
    have hne : (s.task h).next ≠ 0 := fun h0 => by
      have := hc.head_eq_zero.1 h0
      simp at this
    rw [List.length_cons, lastTask, if_pos hne]
    exact ih hc

/-- **`fork`** appends a task with the next pid and the status 0. -/
theorem TaskList.fork (hl : TaskList s l) (h0 : newTask ≠ 0) (hfresh : newTask ∉ s.live)
    (hrun : fork fuel newTask s = some s') :
    TaskList s' (l ++ [newTask]) ∧ s'.current = s.current ∧ s'.nextPid = s.nextPid + 1 ∧
      (∀ a ∈ l, (s'.task a).pid = (s.task a).pid) ∧
      (Tracks l f s → Tracks (l ++ [newTask]) (upd f s.nextPid 0) s') := by
  obtain ⟨m, t, rfl⟩ : ∃ m t, l = m ++ [t] := by
    rcases List.eq_nil_or_concat l with rfl | ⟨m, t, h⟩
    · cases hl.current
    · exact ⟨m, t, by rw [h, List.concat_eq_append]⟩
  have hnew : ∀ a ∈ m ++ [t], a ≠ newTask := fun a ha he => hfresh (he ▸ (hl.live a).1 ha)
  have htm : ∀ a ∈ m, a ≠ t := by
    have := hl.nodup
    rw [List.nodup_append] at this
    exact fun a ha => this.2.2 a ha t (by simp)
  have htnew := hnew t (by simp)
  unfold Tasks.fork addTask at hrun
  dsimp only at hrun
  obtain ⟨tmp, htmp, rfl⟩ := Option.map_eq_some_iff.1 hrun
  -- the loop sees the old list
  obtain rfl : tmp = t := by
    refine lastTask_eq (hl.chain.congr fun a ha => ?_) htmp
    dsimp only [Sched.setTask]
    rw [upd_ne _ _ (hnew a ha), upd_ne _ _ (hnew a ha)]
  clear htmp hrun
  have hrec : ∀ a, upd (upd (upd s.task newTask { s.task newTask with next := 0 }) newTask
      { upd s.task newTask { s.task newTask with next := 0 } newTask with
        pid := s.nextPid, status := 0 }) tmp
      { upd (upd s.task newTask { s.task newTask with next := 0 }) newTask
        { upd s.task newTask { s.task newTask with next := 0 } newTask with
          pid := s.nextPid, status := 0 } tmp with next := newTask } a =
      if a = tmp then { s.task tmp with next := newTask }
      else if a = newTask then ⟨s.nextPid, 0, 0⟩ else s.task a := by
    intro a
    by_cases hat : a = tmp
    · rw [if_pos hat, hat, upd_same, upd_ne _ _ htnew, upd_ne _ _ htnew]
    · rw [if_neg hat, upd_ne _ _ hat]
      by_cases han : a = newTask
      · rw [if_pos han, han, upd_same, upd_same]
      · rw [if_neg han, upd_ne _ _ han, upd_ne _ _ han]
  unfold Sched.setTask
  dsimp only
  generalize hmem : upd (upd (upd s.task newTask _) newTask _) tmp _ = mem at hrec
  have hpid : ∀ a ∈ m ++ [tmp], (mem a).pid = (s.task a).pid := by
    intro a ha
    rw [hrec]
    split
    · rename_i he
      rw [he]
    · rw [if_neg (hnew a ha)]
  have hnewpid : mem newTask = ⟨s.nextPid, 0, 0⟩ := by rw [hrec, if_neg htnew.symm, if_pos rfl]
  refine ⟨⟨?_, ?_, List.mem_append_left _ hl.current, ?_⟩, rfl, rfl, hpid, fun ht a ha => ?_⟩
  · rw [List.append_assoc]
    refine hl.chain.snoc h0 (fun a ha => ?_) ?_ ?_
    · dsimp only
      rw [hrec, if_neg (htm a ha), if_neg (hnew a (List.mem_append_left _ ha))]
    · dsimp only
      rw [hrec, if_pos rfl]
    · dsimp only
      rw [hnewpid]
  · dsimp only
    rw [List.map_append, List.map_congr_left hpid, hl.pids, List.map_singleton, hnewpid,
      List.range_succ]
  · intro a
    rw [List.mem_append, List.mem_singleton, List.mem_cons, hl.live, or_comm]
  · dsimp only
    rcases List.mem_append.1 ha with ha | ha
    · have hlt : (s.task a).pid < s.nextPid := by
        have : (s.task a).pid ∈ (m ++ [tmp]).map fun a => (s.task a).pid := List.mem_map_of_mem ha
        rw [hl.pids] at this
        exact List.mem_range.1 this
      rw [hpid a ha, upd_ne _ _ (by omega), ← ht a ha, hrec]
      split
      · rename_i he
        rw [he]
      · rw [if_neg (hnew a ha)]
    · rw [List.mem_singleton.1 ha, hnewpid, upd_same]

/-! ## `switch_task` -/

/-- The current task, as a place in the list. -/
theorem TaskList.split (hl : TaskList s l) :
    ∃ x y, l = x ++ s.current :: y ∧ Chain (fun a => (s.task a).next) (s.task s.current).next y := by
  obtain ⟨x, y, rfl⟩ := List.append_of_mem hl.current
  exact ⟨x, y, rfl, hl.chain.after⟩

theorem TaskList.nextTask (hl : TaskList s l) : s.nextTask ∈ l := by
  obtain ⟨x, y, hxy, hc⟩ := hl.split
  unfold Sched.nextTask
  split
  · cases l with
    | nil => cases hl.current
    | cons a l =>
      rw [hl.chain.1]
      exact List.mem_cons_self
  · rename_i h0
    cases y with
    | nil => exact absurd hc h0
    | cons b y =>
      rw [hc.1, hxy]
      simp

/-- The list with another task running. -/
theorem TaskList.run (hl : TaskList s l) (ha : a ∈ l) : TaskList { s with current := a } l :=
  ⟨hl.chain, hl.pids, ha, hl.live⟩

theorem findReady_spec (hl : TaskList s l) (hrun : findReady fuel s = some s') :
    ∃ a ∈ l, s' = { s with current := a } ∧ (s.task a).status = 0 := by
  induction fuel generalizing s with
  | zero => cases hrun
  | succ fuel ih =>
    rw [findReady] at hrun
    dsimp only at hrun
    split at hrun
    · obtain ⟨a, ha, hs', h0⟩ := ih (hl.run hl.nextTask) hrun
      exact ⟨a, ha, hs', h0⟩
    · rename_i h0
      cases hrun
      exact ⟨s.nextTask, hl.nextTask, rfl, Classical.not_not.1 h0⟩

theorem findReady_mono {fuel' : Nat} (hrun : findReady fuel s = some s') (hle : fuel ≤ fuel') :
    findReady fuel' s = some s' := by
  induction fuel generalizing fuel' s with
  | zero => cases hrun
  | succ fuel ih =>
    obtain ⟨k, rfl⟩ : ∃ k, fuel' = k + 1 := ⟨fuel' - 1, by omega⟩
    rw [findReady] at hrun ⊢
    dsimp only at hrun ⊢
    split
    · rename_i hne
      rw [if_pos hne] at hrun
      exact ih hrun (by omega)
    · rename_i h0
      rwa [if_neg h0] at hrun

theorem switchTask_mono {fuel' : Nat} (hrun : switchTask fuel s = some s') (hle : fuel ≤ fuel') :
    switchTask fuel' s = some s' := by
  unfold switchTask at hrun ⊢
  split
  · rename_i h0
    rwa [if_pos h0] at hrun
  · rename_i h0
    rw [if_neg h0] at hrun
    exact findReady_mono hrun hle

/-- **`switch_task` selects a task with the status 0**, and changes nothing else. -/
theorem TaskList.switchTask (hl : TaskList s l) (hrun : switchTask fuel s = some s') :
    ∃ a ∈ l, s' = { s with current := a } ∧ (s.task a).status = 0 := by
  unfold Tasks.switchTask at hrun
  rw [if_neg (hl.chain.ne_zero hl.current)] at hrun
  exact findReady_spec hl hrun

/-- The search ends at a ready task behind the current one. -/
theorem findReady_behind {y : List Nat}
    (hc : Chain (fun a => (s.task a).next) (s.task s.current).next y)
    (hready : ∃ a ∈ y, (s.task a).status = 0) : ∃ s', findReady y.length s = some s' := by
  induction y generalizing s with
  | nil =>
    obtain ⟨a, ha, -⟩ := hready
    cases ha
  | cons b y ih =>
    obtain ⟨hb, hb0, hc⟩ := hc
    have hnext : s.nextTask = b := by
      unfold Sched.nextTask
      rw [hb, if_neg hb0]
    rw [List.length_cons, findReady, hnext]
    dsimp only
    split
    · rename_i hne
      refine ih (s := { s with current := b }) hc ?_
      obtain ⟨a, ha, h0⟩ := hready
      rcases List.mem_cons.1 ha with rfl | ha
      · exact absurd h0 hne
      · exact ⟨a, ha, h0⟩
    · exact ⟨_, rfl⟩

/-- Without a ready task behind the current one the search comes to the end of the list. -/
theorem findReady_end {y : List Nat}
    (hc : Chain (fun a => (s.task a).next) (s.task s.current).next y)
    (hno : ∀ a ∈ y, (s.task a).status ≠ 0) :
    ∃ t, (s.task t).next = 0 ∧
      findReady (y.length + fuel) s = findReady fuel { s with current := t } := by
  induction y generalizing s with
  | nil => exact ⟨s.current, hc, by rw [List.length_nil, Nat.zero_add]⟩
  | cons b y ih =>
    obtain ⟨hb, hb0, hc⟩ := hc
    have hnext : s.nextTask = b := by
      unfold Sched.nextTask
      rw [hb, if_neg hb0]
    obtain ⟨t, ht, heq⟩ := ih (s := { s with current := b }) hc
      fun a ha => hno a (List.mem_cons_of_mem _ ha)
    refine ⟨t, ht, ?_⟩
    rw [List.length_cons, Nat.add_right_comm, findReady, hnext]
    dsimp only
    rw [if_pos (hno b List.mem_cons_self)]
    exact heq

/-- **The loop of `switch_task` ends** if some task is ready. -/
theorem TaskList.switchTask_total (hl : TaskList s l) (hready : ∃ a ∈ l, (s.task a).status = 0) :
    ∃ fuel s', Tasks.switchTask fuel s = some s' := by
  have h0 := hl.chain.ne_zero hl.current
  simp only [Tasks.switchTask, if_neg h0]
  obtain ⟨x, y, hxy, hc⟩ := hl.split
  by_cases hbehind : ∃ a ∈ y, (s.task a).status = 0
  · exact ⟨_, findReady_behind hc hbehind⟩
  · have hno : ∀ a ∈ y, (s.task a).status ≠ 0 := fun a ha h0 => hbehind ⟨a, ha, h0⟩
    cases l with
    | nil => cases hl.current
    | cons b l =>
      -- round the end of the list to its first task
      obtain ⟨t, ht, heq⟩ := @findReady_end s (l.length + 1) y hc hno
      refine ⟨y.length + (l.length + 1), ?_⟩
      rw [heq, findReady]
      obtain ⟨hb, -, hcl⟩ := hl.chain
      have hnext : Sched.nextTask { s with current := t } = b := by
        unfold Sched.nextTask
        rw [if_pos ht]
        exact hb
      rw [hnext]
      dsimp only
      split
      · rename_i hne
        refine findReady_behind (s := { s with current := b }) hcl ?_
        obtain ⟨a, ha, h0⟩ := hready
        rcases List.mem_cons.1 ha with rfl | ha
        · exact absurd h0 hne
        · exact ⟨a, ha, h0⟩
      · exact ⟨_, rfl⟩

end

end Tasks
