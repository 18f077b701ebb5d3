import Jaos.Tasks.Proof.Inv

/-!
# What a step does to the tasks

A step is allowed by `Sys.Guard`. It moves the task that runs, to the point `Sys.pointAfter`, and makes the
step of it in the locks, if it is one. All other tasks stay where they are.
-/

namespace Tasks

open Lib

/-- The step in the locks. -/
def Act.inLocks : Act → Option Locking.Act
  | .lock lockid lck => some (.lock lockid lck)
  | .check => some .check
  | .block => some .block
  | .unlock lockid => some (.unlock lockid)
  | _ => none

/-- The point of the task that runs, after the step. -/
def Sys.pointAfter (s : Sys) (x : Act) : Point :=
  let u := s.users s.sched.currentPid
  match x with
  | .lock _ _ => u.point.locking
  | .unlock _ => u.point.unlocked
  | .readline => .calling
  | .exit => .exited
  | .read =>
    match u.point with
    | .called => .clearing
    | .clearing => .testing
    | .testing => if s.kb.newPress then .taking else .blocking
    | .blocking => .taking
    | .taking => .reading
    | .reading =>
      if recognizeScancode s.kb.pressCode ≠ '\n' ∧ u.line.length < 79 then .echoing else .ending
    | .leaving => .unlocking
    | pt => pt
  | _ => u.point

/-- The task between the halves of its `unlock`, after the step. -/
def Sys.wakingAfter (s : Sys) : Act → Option (Nat × Int)
  | .unlock lockid =>
    if (Locking.unlockHead s.sched.currentPid lockid s.lk.kernel).1 then
      some (s.sched.currentPid, lockid)
    else none
  | .wake => none
  | _ => s.waking

/-- Whether the task that runs is on the way to `int $0x20` after the step. -/
def Sys.yieldsAfter (s : Sys) (x : Act) : Bool :=
  let u := s.users s.sched.currentPid
  match x with
  | .block | .exit => true
  | .yield | .readline => false
  | .read => if u.point = .blocking then true else u.yields
  | _ => u.yields

/-- The variables of the keyboard after the step. -/
def Sys.kbAfter (s : Sys) : Act → Keyboard
  | .key scancode => s.kb.handle scancode
  | .read =>
    match (s.users s.sched.currentPid).point with
    | .called => { s.kb with occupant := Locking.headPid keyboardLock s.lk.kernel }
    | .clearing => { s.kb with newPress := false, newBreak := false }
    | .taking => { s.kb with newPress := false }
    | .leaving => { s.kb with occupant := 0 }
    | _ => s.kb
  | _ => s.kb

/-- The points with a step of `readline` outside `lock` and `unlock`. -/
def Point.steps : Point → Bool
  | .called | .clearing | .testing | .blocking | .taking | .reading | .leaving => true
  | _ => false

/-- When the step is possible. -/
def Sys.Guard (s : Sys) (x : Act) : Prop :=
  let pid := s.sched.currentPid
  let u := s.users pid
  match x with
  | .timer | .key _ => True
  | .yield => u.yields
  | .wake => ∃ lockid, s.waking = some (pid, lockid)
  | .lock lockid _ => s.runs pid ∧ s.waking = none ∧ u.point.mayLock lockid
  | .check => s.runs pid ∧ s.waking = none
  | .block => s.runs pid
  | .unlock lockid => s.runs pid ∧ s.waking = none ∧ u.point.mayUnlock lockid
  | .fork _ | .exit | .readline => (s.runs pid ∧ (s.lk.procs pid).pc = .run) ∧ u.point = .user
  | .read => (s.runs pid ∧ (s.lk.procs pid).pc = .run) ∧ u.point.steps

structure Effect (s : Sys) (x : Act) (s' : Sys) : Prop where
  guard : s.Guard x
  users : ∃ u, s'.users = upd s.users s.sched.currentPid u ∧ u.point = s.pointAfter x ∧
    u.yields = s.yieldsAfter x
  locks : match x.inLocks with
    | some a => Locking.act s.lk s.sched.currentPid a = some s'.lk
    | none => s'.lk = s.lk
  waking : s'.waking = s.wakingAfter x
  kb : s'.kb = s.kbAfter x

section
variable {s s' : Sys} {x : Act} {fuel : Nat}

/-- A step that moves no task. -/
theorem Effect.still (hguard : s.Guard x) (hx : x.inLocks = none)
    (hpt : s.pointAfter x = (s.users s.sched.currentPid).point) (husers : s'.users = s.users)
    (hyields : s.yieldsAfter x = (s.users s.sched.currentPid).yields)
    (hlk : s'.lk = s.lk) (hwaking : s'.waking = s.wakingAfter x) (hkb : s'.kb = s.kbAfter x) :
    Effect s x s' := by
  refine ⟨hguard, ⟨s.users s.sched.currentPid, by rw [husers, upd_self], hpt.symm, hyields.symm⟩, ?_,
    hwaking, hkb⟩
  rw [hx]
  exact hlk

theorem read_effect (hout : s.runs s.sched.currentPid ∧ (s.lk.procs s.sched.currentPid).pc = .run)
    (hstep : read fuel s.sched.currentPid s = some s') :
    Effect s .read s' := by
  unfold read at hstep
  cases hpt : (s.users s.sched.currentPid).point with
  | called =>
    rw [hpt] at hstep
    cases hstep
    exact ⟨⟨hout, by rw [hpt]; rfl⟩, ⟨_, rfl, by simp [Sys.pointAfter, hpt], by simp [Sys.yieldsAfter, hpt]⟩, rfl, rfl,
      by simp [Sys.kbAfter, Sys.goto, hpt]⟩
  | clearing =>
    rw [hpt] at hstep
    cases hstep
    exact ⟨⟨hout, by rw [hpt]; rfl⟩, ⟨_, rfl, by simp [Sys.pointAfter, hpt], by simp [Sys.yieldsAfter, hpt]⟩, rfl, rfl,
      by simp [Sys.kbAfter, Sys.goto, hpt]⟩
  | testing =>
    rw [hpt] at hstep
    cases hstep
    exact ⟨⟨hout, by rw [hpt]; rfl⟩, ⟨_, rfl, by simp [Sys.pointAfter, hpt], by simp [Sys.yieldsAfter, hpt]⟩, rfl, rfl,
      by simp [Sys.kbAfter, Sys.goto, hpt]⟩
  | blocking =>
    rw [hpt] at hstep
    obtain ⟨sched, -, rfl⟩ := Option.map_eq_some_iff.1 hstep
    exact ⟨⟨hout, by rw [hpt]; rfl⟩, ⟨_, upd_upd _ _ _ _, by simp [Sys.pointAfter, Sys.goto, hpt],
      by simp [Sys.yieldsAfter, hpt]⟩, rfl, rfl, by simp [Sys.kbAfter, Sys.goto, Sys.setYields, hpt]⟩
  | taking =>
    rw [hpt] at hstep
    cases hstep
    exact ⟨⟨hout, by rw [hpt]; rfl⟩, ⟨_, rfl, by simp [Sys.pointAfter, hpt], by simp [Sys.yieldsAfter, hpt]⟩, rfl, rfl,
      by simp [Sys.kbAfter, Sys.goto, hpt]⟩
  | reading =>
    rw [hpt] at hstep
    dsimp only at hstep
    split at hstep
    · rename_i hc
      cases hstep
      exact ⟨⟨hout, by rw [hpt]; rfl⟩, ⟨_, rfl, by simp [Sys.pointAfter, hpt, hc], by simp [Sys.yieldsAfter, hpt]⟩, rfl, rfl,
        by simp [Sys.kbAfter, hpt]⟩
    · rename_i hc
      cases hstep
      refine ⟨⟨hout, by rw [hpt]; rfl⟩, ⟨_, rfl, ?_, by simp [Sys.yieldsAfter, hpt]⟩, rfl, rfl,
        by simp [Sys.kbAfter, Sys.goto, hpt]⟩
      unfold Sys.pointAfter
      dsimp only
      rw [hpt]
      dsimp only
      rw [if_neg hc]
  | leaving =>
    rw [hpt] at hstep
    cases hstep
    exact ⟨⟨hout, by rw [hpt]; rfl⟩, ⟨_, rfl, by simp [Sys.pointAfter, hpt], by simp [Sys.yieldsAfter, hpt]⟩, rfl, rfl,
      by simp [Sys.kbAfter, Sys.goto, hpt]⟩
  | _ =>
    rw [hpt] at hstep
    cases hstep

/-- **What a step does**, and when. -/
theorem Step.effect (hstep : Step s x s') : Effect s x s' := by
  obtain ⟨fuel, hstep⟩ := hstep
  cases x with
  | timer =>
    obtain ⟨sched, -, rfl⟩ := Option.map_eq_some_iff.1 hstep
    exact .still trivial rfl rfl rfl rfl rfl rfl rfl
  | key scancode =>
    unfold act at hstep
    dsimp only at hstep
    split at hstep
    · obtain ⟨sched, -, rfl⟩ := Option.map_eq_some_iff.1 hstep
      exact .still trivial rfl rfl rfl rfl rfl rfl rfl
    · cases hstep
      exact .still trivial rfl rfl rfl rfl rfl rfl rfl
  | yield =>
    unfold act at hstep
    dsimp only at hstep
    split at hstep
    · rename_i hc
      obtain ⟨sched, -, rfl⟩ := Option.map_eq_some_iff.1 hstep
      exact ⟨hc, ⟨_, rfl, rfl, rfl⟩, rfl, rfl, rfl⟩
    · cases hstep
  | lock lockid lck =>
    unfold act at hstep
    dsimp only at hstep
    split at hstep
    · rename_i hc
      obtain ⟨lk, hlk, rfl⟩ := Option.map_eq_some_iff.1 hstep
      exact ⟨hc, ⟨_, rfl, rfl, rfl⟩, hlk, rfl, rfl⟩
    · cases hstep
  | check =>
    unfold act at hstep
    dsimp only at hstep
    split at hstep
    · rename_i hc
      obtain ⟨lk, hlk, rfl⟩ := Option.map_eq_some_iff.1 hstep
      exact ⟨hc, ⟨_, (upd_self s.users s.sched.currentPid).symm, rfl, rfl⟩, hlk, rfl, rfl⟩
    · cases hstep
  | block =>
    unfold act at hstep
    dsimp only at hstep
    split at hstep
    · rename_i hc
      obtain ⟨lk, hlk, hstep⟩ := Option.bind_eq_some_iff.1 hstep
      obtain ⟨sched, -, rfl⟩ := Option.map_eq_some_iff.1 hstep
      exact ⟨hc, ⟨_, rfl, rfl, rfl⟩, hlk, rfl, rfl⟩
    · cases hstep
  | unlock lockid =>
    unfold act at hstep
    dsimp only at hstep
    split at hstep
    · rename_i hc
      obtain ⟨lk, hlk, rfl⟩ := Option.map_eq_some_iff.1 hstep
      exact ⟨hc, ⟨_, rfl, rfl, rfl⟩, hlk, rfl, rfl⟩
    · cases hstep
  | wake =>
    unfold act at hstep
    dsimp only at hstep
    split at hstep
    · rename_i p lockid hw
      split at hstep
      · rename_i hp
        obtain ⟨sched, -, rfl⟩ := Option.map_eq_some_iff.1 hstep
        exact .still ⟨lockid, hp ▸ hw⟩ rfl rfl rfl rfl rfl rfl rfl
      · cases hstep
    · cases hstep
  | fork newTask =>
    unfold act at hstep
    dsimp only at hstep
    split at hstep
    · rename_i hc
      obtain ⟨sched, -, rfl⟩ := Option.map_eq_some_iff.1 hstep
      exact .still ⟨hc.1, hc.2.1⟩ rfl rfl rfl rfl rfl rfl rfl
    · cases hstep
  | exit =>
    unfold act at hstep
    dsimp only at hstep
    split at hstep
    · rename_i hc
      obtain ⟨sched, -, rfl⟩ := Option.map_eq_some_iff.1 hstep
      exact ⟨hc, ⟨_, upd_upd _ _ _ _, by simp [Sys.pointAfter, Sys.goto], rfl⟩, rfl, rfl, rfl⟩
    · cases hstep
  | readline =>
    unfold act at hstep
    dsimp only at hstep
    split at hstep
    · rename_i hc
      cases hstep
      exact ⟨hc, ⟨_, rfl, rfl, rfl⟩, rfl, rfl, rfl⟩
    · cases hstep
  | read =>
    unfold act at hstep
    dsimp only at hstep
    split at hstep
    · rename_i hc
      exact read_effect hc hstep
    · cases hstep

/-- The other tasks. -/
theorem Effect.other (h : Effect s x s') {q : Nat} (hq : q ≠ s.sched.currentPid) :
    s'.users q = s.users q ∧ s'.lk.procs q = s.lk.procs q := by
  obtain ⟨-, ⟨u, hu, -⟩, hl, -, -⟩ := h
  refine ⟨by rw [hu, upd_ne _ _ hq], ?_⟩
  split at hl
  · obtain ⟨p', hp', -⟩ := Locking.act_procs hl
    rw [hp', upd_ne _ _ hq]
  · rw [hl]

/-- The task that runs. -/
theorem Effect.self (h : Effect s x s') :
    (s'.users s.sched.currentPid).point = s.pointAfter x ∧
      match x.inLocks with
      | some a => Locking.Acts (s.lk.procs s.sched.currentPid) (s'.lk.procs s.sched.currentPid) a
      | none => s'.lk.procs s.sched.currentPid = s.lk.procs s.sched.currentPid := by
  obtain ⟨-, ⟨u, hu, hpt, -⟩, hl, -, -⟩ := h
  refine ⟨by rw [hu, upd_same, hpt], ?_⟩
  split at hl
  · obtain ⟨p', hp', hacts⟩ := Locking.act_procs hl
    rw [hp', upd_same]
    exact hacts
  · rw [hl]

end

end Tasks
