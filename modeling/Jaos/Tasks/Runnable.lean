import Jaos.Tasks.Proof.Effect

/-!
# The search for a task ends

In every run in which the idle task, pid 0, calls no `lock`, `readline` or `exit`, its status stays 0:
`lock` blocks the task that runs, and `get_char` the one in `occupant`, which is inside `readline` and so
not the idle task. So `switch_task` always finds a task (`switch_task_ends`). The sections of the locks
need not be flat for this.
-/

namespace Tasks

open Lib

/-- The idle task calls nothing that blocks. -/
def IdleRests (s : Sys) (x : Act) : Prop :=
  s.sched.currentPid = 0 → (∀ lockid lck, x ≠ .lock lockid lck) ∧ x ≠ .readline ∧ x ≠ .exit

/-- The idle task is ready and outside the locks and `readline`. -/
structure Idle (s : Sys) (f : Nat → Nat) : Prop where
  ready : f 0 = 0
  run : (s.lk.procs 0).pc = .run
  user : (s.users 0).point = .user

section
variable {s s' : Sys} {l : List Nat} {f : Nat → Nat} {x : Act}

/-- No step blocks the idle task. -/
theorem Idle.writes (hidle : Idle s f) (h : Inv s l f) (hstep : Step s x s') (hrest : IdleRests s x)
    {st : Nat} (hw : s.writes x = some (0, st)) : st = 0 := by
  have hself := (hstep.effect).self
  cases x with
  | key scancode =>
    unfold Sys.writes at hw
    dsimp only at hw
    split at hw
    · exact (Prod.mk.inj (Option.some.inj hw)).2.symm
    · cases hw
  | block =>
    obtain ⟨hcur, -⟩ := Prod.mk.inj (Option.some.inj hw)
    obtain ⟨id, hpc, -⟩ := hself.2
    rw [hcur, hidle.run] at hpc
    cases hpc
  | wake =>
    obtain ⟨w, -, hw⟩ := Option.map_eq_some_iff.1 hw
    exact (Prod.mk.inj hw).2.symm
  | fork newTask => exact (Prod.mk.inj (Option.some.inj hw)).2.symm
  | exit =>
    obtain ⟨hcur, -⟩ := Prod.mk.inj (Option.some.inj hw)
    exact absurd rfl (hrest hcur).2.2
  | read =>
    unfold Sys.writes at hw
    dsimp only at hw
    split at hw
    · rename_i hpt
      -- the occupant is the task itself
      have hocc := h.readers.inside s.sched.currentPid (by rw [hpt]; rfl)
      obtain ⟨h0, -⟩ := Prod.mk.inj (Option.some.inj hw)
      rw [← hocc, h0, hidle.user] at hpt
      cases hpt
    · cases hw
  | _ => cases hw

theorem Idle.step (hidle : Idle s f) (h : Inv s l f) (hstep : Step s x s') (hrest : IdleRests s x) :
    Idle s' (written f (s.writes x)) := by
  have heff := hstep.effect
  have hready : written f (s.writes x) 0 = 0 := by
    cases hw : s.writes x with
    | none => exact hidle.ready
    | some w =>
      obtain ⟨pid, st⟩ := w
      unfold written
      by_cases hp : pid = 0
      · subst hp
        rw [hidle.writes h hstep hrest hw]
        exact upd_same _ _ _
      · exact (upd_ne _ _ (Ne.symm hp)).trans hidle.ready
  by_cases hcur : s.sched.currentPid = 0
  · obtain ⟨hpt, hlk⟩ := heff.self
    obtain ⟨hnolock, hnoread, hnoexit⟩ := hrest hcur
    rw [hcur] at hpt hlk
    have hrun := hidle.run
    have huser := hidle.user
    have hafter : s.pointAfter x = .user := by
      cases x with
      | lock lockid lck => exact absurd rfl (hnolock lockid lck)
      | readline => exact absurd rfl hnoread
      | exit => exact absurd rfl hnoexit
      | _ => simp [Sys.pointAfter, hcur, huser, Point.unlocked]
    refine ⟨hready, ?_, hpt.trans hafter⟩
    cases x with
    | lock lockid lck => exact absurd rfl (hnolock lockid lck)
    | check =>
      obtain ⟨id, hpc, -⟩ := hlk
      rw [hrun] at hpc
      cases hpc
    | block =>
      obtain ⟨id, hpc, -⟩ := hlk
      rw [hrun] at hpc
      cases hpc
    | unlock lockid =>
      obtain ⟨-, -, he⟩ := hlk
      rw [he]
      exact hrun
    | _ => rw [show s'.lk.procs 0 = s.lk.procs 0 from hlk]; exact hrun
  · obtain ⟨hu, hp⟩ := heff.other (Ne.symm hcur)
    exact ⟨hready, by rw [hp]; exact hidle.run, by rw [hu]; exact hidle.user⟩

/-- A ready task lets the three calls of `switch_task` end. -/
theorem Inv.switches (h : Inv s l f) (h0 : f 0 = 0) :
    (∃ s', Step s .timer s') ∧ (∀ scancode, ∃ s', Step s (.key scancode) s') ∧
      ((s.users s.sched.currentPid).yields → ∃ s', Step s .yield s') := by
  have hready : ∀ {sched : Sched} {f' : Nat → Nat}, TaskList sched l → Tracks l f' sched → f' 0 = 0 →
      ∃ a ∈ l, (sched.task a).status = 0 := by
    intro sched f' hl ht hf
    have hpos : 0 < sched.nextPid := Nat.lt_of_le_of_lt (Nat.zero_le _) hl.current_pid
    obtain ⟨a, ha, hp⟩ := hl.find hpos
    exact ⟨a, ha, by rw [ht a ha, hp, hf]⟩
  obtain ⟨fuel, sched, hs⟩ := h.list.switchTask_total (hready h.list h.tracks h0)
  refine ⟨⟨_, fuel, by simp only [act, hs, Option.map_some]; rfl⟩, fun scancode => ?_, fun hy => ?_⟩
  · by_cases hc : (s.kb.handle scancode).occupant ≠ 0 ∧ (s.kb.handle scancode).newPress
    · obtain ⟨n, sched1, hs1⟩ : ∃ n sched,
          changeTaskStatus n (s.kb.handle scancode).occupant 0 s.sched = some sched :=
        h.list.changeTaskStatus_total
      obtain ⟨hl1, ht1, -, -⟩ := h.list.change h.tracks hs1
      have hf : upd f (s.kb.handle scancode).occupant 0 0 = 0 := by
        unfold upd
        split
        · rfl
        · exact h0
      obtain ⟨m, sched2, hs2⟩ := hl1.switchTask_total (hready hl1 ht1 hf)
      -- enough fuel for both loops
      have hs1' := changeFrom_mono hs1 (Nat.le_max_left n m)
      have hs2' := switchTask_mono hs2 (Nat.le_max_right n m)
      refine ⟨{ s with sched := sched2, kb := s.kb.handle scancode }, max n m, ?_⟩
      unfold act
      dsimp only
      rw [if_pos hc, changeTaskStatus, hs1', Option.bind_some, hs2', Option.map_some]
    · refine ⟨{ s with kb := s.kb.handle scancode }, 0, ?_⟩
      unfold act
      dsimp only
      rw [if_neg hc]
  · refine ⟨{ s with sched }.setYields s.sched.currentPid false, fuel, ?_⟩
    unfold act
    dsimp only
    rw [if_pos hy, hs, Option.map_some]

/-- The list of tasks, and that every call of `switch_task` ends: from the timer, from the handler of the
keyboard and behind a block. -/
structure Switches (s : Sys) : Prop where
  tasks : ∃ l, Chain (fun a => (s.sched.task a).next) s.sched.taskList l ∧
    (∀ a, a ∈ l ↔ a ∈ s.sched.live) ∧ ∃ a ∈ l, (s.sched.task a).status = 0
  ends : ∃ fuel sched, switchTask fuel s.sched = some sched
  timer : ∃ s', Step s .timer s'
  key : ∀ scancode, ∃ s', Step s (.key scancode) s'
  yield : (s.users s.sched.currentPid).yields → ∃ s', Step s .yield s'

/-- **The search of `switch_task` ends**, in every run in which the idle task calls nothing that blocks. -/
theorem switch_task_ends (h : Reach Init (fun s x s' => Step s x s' ∧ IdleRests s x) s) :
    Switches s := by
  obtain ⟨l, f, hinv, hidle⟩ := h.invariant (P := fun s => ∃ l f, Inv s l f ∧ Idle s f)
    (fun s hs => by
      obtain ⟨l, hinv⟩ := Inv.init hs
      exact ⟨l, _, hinv, rfl, (hs.locks.2 0).1, by rw [hs.users 0]⟩)
    fun s x s' hs hx => by
      obtain ⟨l, f, hinv, hidle⟩ := hs
      obtain ⟨l', hinv', -⟩ := hinv.step hx.1
      exact ⟨l', _, hinv', hidle.step hinv hx.1 hx.2⟩
  obtain ⟨htimer, hkey, hyield⟩ := hinv.switches hidle.ready
  have hpos : 0 < s.sched.nextPid := Nat.lt_of_le_of_lt (Nat.zero_le _) hinv.list.current_pid
  obtain ⟨a, ha, hp⟩ := hinv.list.find hpos
  have hready : (s.sched.task a).status = 0 := by rw [hinv.tracks a ha, hp, hidle.ready]
  exact ⟨⟨l, hinv.list.chain, hinv.list.live, a, ha, hready⟩,
    hinv.list.switchTask_total ⟨a, ha, hready⟩, htimer, hkey, hyield⟩

end

def Act.mayBlock : Act → Bool
  | .lock _ _ | .readline | .exit => true
  | _ => false

/-- A step with fuel for ten tasks, if the idle task does not block. -/
def tested (s : Sys) (x : Act) : Option Sys :=
  if s.sched.currentPid = 0 ∧ x.mayBlock then none else act 10 s x

theorem tested_step {s s' : Sys} {x : Act} (h : tested s x = some s') : Step s x s' ∧ IdleRests s x := by
  unfold tested at h
  split at h
  · cases h
  · rename_i hno
    refine ⟨⟨10, h⟩, fun h0 => ⟨?_, ?_, ?_⟩⟩
    · rintro lockid lck rfl
      exact hno ⟨h0, rfl⟩
    · rintro rfl
      exact hno ⟨h0, rfl⟩
    · rintro rfl
      exact hno ⟨h0, rfl⟩

/-- Task 1 waits in `get_char` and the idle task runs; the next press wakes it. -/
theorem switch_task_ends_run : ∃ s, runList tested [.fork 32, .timer, .readline, .lock keyboardLock 8,
      .read, .read, .read, .read, .yield] booted = some s ∧
    s.kb.occupant = 1 ∧ Switches s := by
  have hrun : (runList tested [.fork 32, .timer, .readline, .lock keyboardLock 8, .read, .read, .read,
      .read, .yield] booted).map (fun s => s.kb.occupant) = some 1 := by decide
  obtain ⟨s, hs, hocc⟩ := Option.map_eq_some_iff.1 hrun
  exact ⟨s, hs, hocc,
    switch_task_ends (.of_list (fun _ _ _ => tested_step) (.start init_booted) hs)⟩

end Tasks
