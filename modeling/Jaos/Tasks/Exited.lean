import Jaos.Tasks.Proof.Effect

/-!
# An exited task never runs again

`change_task_status` is called with pids from the queues of the locks and from `occupant`. With flat
sections the process woken by `unlock` is in the waiting loop, and the occupant is inside `readline`; an
exited task is in neither (`Gone`). So its status stays 2, and `switch_task` selects only tasks with the
status 0 (`exited_for_good`). It does not matter whether the task was inside a section when it exited.
-/

namespace Locking

open Lib

section
variable {s s' : Sys} {id : Int} {pid : Nat}

/-- The process at the head waits, or is inside the section. -/
theorem Queued.head (h : Queued id s) (hid : id ≠ -1) (h0 : (s.kernel.locks id).head ≠ 0) :
    (s.procs (headPid id s.kernel)).Waits id ∨ id ∈ (s.procs (headPid id s.kernel)).held := by
  obtain ⟨t, queues, h⟩ := h
  have hl := h.lists.listed id hid
  cases hq : queues id with
  | nil => exact absurd (hl.empty_iff.2 hq) h0
  | cons a l =>
    rw [hq] at hl
    refine (h.member _).1 ?_
    rw [← h.pids, hq, pids, List.map_cons, ← hl.head.2]
    exact List.mem_cons_self

/-- An `unlock` that wakes somebody leaves a process in the queue, and this process waits. -/
theorem Queued.woken (h : Queued id s) (hid : id ≠ -1) (hstep : act s pid (.unlock id) = some s')
    (hwake : (unlockHead pid id s.kernel).1 = true) : (s'.procs (headPid id s'.kernel)).Waits id := by
  have h' : Queued id s' := h.step hid hstep nofun
  obtain ⟨p', hprocs, -, hhead, hp'⟩ := act_procs hstep
  have hin := List.mem_of_head? hhead
  have hown := h.owner hid hin
  have hsingle := h.single pid
  obtain ⟨t, queues, hord⟩ := h
  -- the queue is not empty
  have h0 : (s'.kernel.locks id).head ≠ 0 := by
    have hkernel : s'.kernel = unlock pid id s.kernel := by
      unfold act at hstep
      dsimp only at hstep
      split at hstep
      · cases hstep
        rfl
      · cases hstep
    obtain ⟨-, -, hcases⟩ := hord.lists.unlock_cases pid id
    rw [hkernel, unlock_eq, if_pos hwake]
    rcases hcases with ⟨-, hsame⟩ | ⟨-, a, l, -, ⟨-, hno, -⟩ | ⟨hl, -, -, hlists⟩ | ⟨-, hne, -⟩⟩
    · rw [hsame] at hwake
      cases hwake
    · rw [hno] at hwake
      cases hwake
    · intro h0
      have := (hlists.listed id hid).empty_iff.1 h0
      rw [upd_same] at this
      exact hl this
    · exact absurd hown hne
  refine (h'.head hid h0).resolve_right fun hin' => ?_
  -- nobody is inside: not the process that left, and no other was
  rw [hprocs] at hin'
  by_cases hp : headPid id s'.kernel = pid
  · rw [hp, upd_same, hp'] at hin'
    unfold Proc.leave at hin'
    dsimp only at hin'
    cases hheld : (s.procs pid).held with
    | nil => simp [hheld] at hin
    | cons b rest =>
      rw [hheld] at hhead hin' hsingle
      obtain rfl := Option.some.inj hhead
      rw [List.count_cons_self] at hsingle
      rw [List.tail_cons] at hin'
      have := List.count_pos_iff.2 hin'
      omega
  · rw [upd_ne _ _ hp] at hin'
    have h : Queued id s := ⟨t, queues, hord⟩
    exact hp (h.unique hid hin' hin)

end

end Locking

namespace Tasks

open Lib

/-- The sections are flat. -/
def FlatSections (s : Sys) (x : Act) : Prop :=
  ∀ lockid lck, x = .lock lockid lck → lockid ∉ (s.lk.procs s.sched.currentPid).held

/-- The exited tasks have the status 2, and nobody wakes them. -/
structure Gone (s : Sys) (f : Nat → Nat) : Prop where
  queued : ∀ id, id ≠ -1 → Locking.Queued id s.lk
  waking : ∀ p id, s.waking = some (p, id) →
    (s.lk.procs (Locking.headPid id s.lk.kernel)).Waits id
  status : ∀ p, f p = 2 ↔ (s.users p).point = .exited
  outside : ∀ p, (s.users p).point = .exited → (s.lk.procs p).pc = .run

section
variable {s s' : Sys} {l : List Nat} {f : Nat → Nat} {x : Act}

theorem Gone.init (h : Init s) : Gone s fun _ => 0 := by
  refine ⟨fun _ _ => .init h.locks, fun p id hw => ?_, fun p => ?_, fun p _ => (h.locks.2 p).1⟩
  · rw [h.waking] at hw
    cases hw
  · rw [h.users p]
    exact ⟨nofun, nofun⟩

theorem Point.locking_exited {pt : Point} : pt.locking = .exited ↔ pt = .exited := by
  cases pt <;> simp [Point.locking]

theorem Point.unlocked_exited {pt : Point} : pt.unlocked = .exited ↔ pt = .exited := by
  cases pt <;> simp [Point.unlocked]

/-- Only `exit` makes an exited task, and an exited task takes no step. -/
theorem pointAfter_exited (hguard : s.Guard x) (hx : x ≠ .exit)
    (hexited : s.pointAfter x = .exited) :
    (s.users s.sched.currentPid).point = .exited ∧ (∀ lockid lck, x ≠ .lock lockid lck) := by
  unfold Sys.pointAfter at hexited
  unfold Sys.Guard at hguard
  cases x with
  | exit => exact absurd rfl hx
  | readline => cases hexited
  | lock lockid lck =>
    obtain ⟨-, -, hmay⟩ := hguard
    rw [Point.locking_exited.1 hexited] at hmay
    exact absurd hmay not_false
  | unlock lockid => exact ⟨Point.unlocked_exited.1 hexited, fun _ _ => nofun⟩
  | read =>
    refine ⟨?_, fun _ _ => nofun⟩
    dsimp only at hexited
    cases hpt : (s.users s.sched.currentPid).point with
    | exited => rfl
    | testing =>
      rw [hpt] at hexited
      dsimp only at hexited
      split at hexited <;> cases hexited
    | reading =>
      rw [hpt] at hexited
      dsimp only at hexited
      split at hexited <;> cases hexited
    | _ =>
      rw [hpt] at hexited
      cases hexited
  | _ => exact ⟨hexited, fun _ _ => nofun⟩

/-- **No `change_task_status` reaches an exited task**, but for its own `exit`. -/
theorem Gone.writes (hg : Gone s f) (h : Inv s l f) (hstep : Step s x s') (hx : x ≠ .exit)
    {pid st : Nat} (hw : s.writes x = some (pid, st)) : st ≠ 2 ∧ (s.users pid).point ≠ .exited := by
  have heff := hstep.effect
  cases x with
  | key scancode =>
    unfold Sys.writes at hw
    dsimp only at hw
    split at hw
    · rename_i hc
      obtain ⟨rfl, rfl⟩ := Prod.mk.inj (Option.some.inj hw)
      refine ⟨by decide, fun hpt => ?_⟩
      have := h.readers.occupied (by simpa using hc.1)
      rw [Keyboard.handle_occupant] at hpt
      rw [hpt] at this
      cases this
    · cases hw
  | block =>
    obtain ⟨rfl, rfl⟩ := Prod.mk.inj (Option.some.inj hw)
    refine ⟨by decide, fun hpt => ?_⟩
    obtain ⟨id, hpc, -⟩ := heff.self.2
    rw [hg.outside _ hpt] at hpc
    cases hpc
  | wake =>
    obtain ⟨w, hsome, hw⟩ := Option.map_eq_some_iff.1 hw
    obtain ⟨rfl, rfl⟩ := Prod.mk.inj hw
    exact ⟨by decide, fun hpt =>
      Locking.Proc.not_waits (hg.outside _ hpt) (hg.waking w.1 w.2 hsome)⟩
  | fork newTask =>
    obtain ⟨rfl, rfl⟩ := Prod.mk.inj (Option.some.inj hw)
    refine ⟨by decide, fun hpt => ?_⟩
    rw [h.unborn _ (Nat.le_refl _)] at hpt
    cases hpt
  | exit => exact absurd rfl hx
  | read =>
    unfold Sys.writes at hw
    dsimp only at hw
    split at hw
    · rename_i hpt
      obtain ⟨rfl, rfl⟩ := Prod.mk.inj (Option.some.inj hw)
      refine ⟨by decide, fun hpt' => ?_⟩
      rw [h.readers.inside s.sched.currentPid (by rw [hpt]; rfl), hpt] at hpt'
      cases hpt'
    · cases hw
  | _ => cases hw

theorem Gone.step_status (hg : Gone s f) (h : Inv s l f) (hstep : Step s x s') (p : Nat) :
    written f (s.writes x) p = 2 ↔ (s'.users p).point = .exited := by
  have heff := hstep.effect
  by_cases hx : x = .exit
  · subst hx
    by_cases hp : p = s.sched.currentPid
    · subst hp
      exact ⟨fun _ => heff.self.1, fun _ => upd_same _ _ _⟩
    · rw [(heff.other hp).1, ← hg.status p]
      unfold written Sys.writes
      dsimp only
      rw [upd_ne _ _ hp]
  · -- the points of the exited tasks are those before
    have hpt : (s'.users p).point = .exited ↔ (s.users p).point = .exited := by
      by_cases hp : p = s.sched.currentPid
      · subst hp
        rw [heff.self.1]
        refine ⟨fun he => (pointAfter_exited heff.guard hx he).1, fun he => ?_⟩
        have hguard := heff.guard
        unfold Sys.pointAfter
        cases x with
        | exit => exact absurd rfl hx
        | readline =>
          have hu := hguard.2
          rw [he] at hu
          cases hu
        | lock lockid lck =>
          have hmay := hguard.2.2
          rw [he] at hmay
          exact absurd hmay not_false
        | unlock lockid => exact Point.unlocked_exited.2 he
        | read =>
          dsimp only
          rw [he]
        | _ => exact he
      · rw [(heff.other hp).1]
    rw [hpt, ← hg.status p]
    cases hw : s.writes x with
    | none => exact Iff.rfl
    | some w =>
      obtain ⟨pid, st⟩ := w
      obtain ⟨hst, hne⟩ := hg.writes h hstep hx hw
      unfold written
      dsimp only
      by_cases hp : p = pid
      · rw [hp, upd_same, hg.status pid]
        exact ⟨fun h2 => absurd h2 hst, fun he => absurd he hne⟩
      · rw [upd_ne _ _ hp]

theorem Gone.step_outside (hg : Gone s f) (hstep : Step s x s') {p : Nat}
    (hp : (s'.users p).point = .exited) : (s'.lk.procs p).pc = .run := by
  have heff := hstep.effect
  by_cases hcur : p = s.sched.currentPid
  · subst hcur
    obtain ⟨hpt, hlk⟩ := heff.self
    by_cases hx : x = .exit
    · subst hx
      rw [show s'.lk.procs _ = s.lk.procs _ from hlk]
      exact heff.guard.1.2
    · obtain ⟨he, hnolock⟩ := pointAfter_exited heff.guard hx (hpt ▸ hp)
      have hrun := hg.outside _ he
      cases x with
      | lock lockid lck => exact absurd rfl (hnolock lockid lck)
      | check =>
        obtain ⟨id, hpc, -⟩ := hlk
        rw [hrun] at hpc
        cases hpc
      | block =>
        obtain ⟨id, hpc, -⟩ := hlk
        rw [hrun] at hpc
        cases hpc
      | unlock lockid =>
        obtain ⟨-, -, hl⟩ := hlk
        rw [hl]
        exact hrun
      | _ =>
        rw [show s'.lk.procs _ = s.lk.procs _ from hlk]
        exact hrun
  · obtain ⟨hu, hl⟩ := heff.other hcur
    rw [hl]
    exact hg.outside p (hu ▸ hp)

theorem Gone.step_queued (hg : Gone s f) (hstep : Step s x s') (hflat : FlatSections s x) {id : Int}
    (hid : id ≠ -1) : Locking.Queued id s'.lk := by
  have hl := hstep.effect.locks
  cases x with
  | lock lockid lck =>
    refine (hg.queued id hid).step hid hl fun lck' hx => ?_
    obtain ⟨rfl, -⟩ := Locking.Act.lock.inj hx
    exact hflat lockid lck rfl
  | check => exact (hg.queued id hid).step hid hl nofun
  | block => exact (hg.queued id hid).step hid hl nofun
  | unlock lockid => exact (hg.queued id hid).step hid hl nofun
  | _ =>
    rw [show s'.lk = s.lk from hl]
    exact hg.queued id hid

theorem Gone.step_waking (hg : Gone s f) (hstep : Step s x s') {p : Nat} {id : Int}
    (hw : s'.waking = some (p, id)) : (s'.lk.procs (Locking.headPid id s'.lk.kernel)).Waits id := by
  have heff := hstep.effect
  have hl := heff.locks
  rw [heff.waking] at hw
  cases x with
  | lock lockid lck =>
    have hnone := heff.guard.2.1
    rw [show s.wakingAfter (.lock lockid lck) = s.waking from rfl, hnone] at hw
    cases hw
  | check =>
    have hnone := heff.guard.2
    rw [show s.wakingAfter .check = s.waking from rfl, hnone] at hw
    cases hw
  | block =>
    have hwaits := hg.waking p id hw
    have hstep' := hl
    obtain ⟨p', hprocs, lockid, hpc, hp'⟩ := Locking.act_procs hstep'
    have hkernel : s'.lk.kernel = Locking.changeTaskStatus s.sched.currentPid 1 s.lk.kernel := by
      unfold Locking.act at hstep'
      dsimp only at hstep'
      rw [hpc] at hstep'
      rw [← Option.some.inj hstep']
    rw [show Locking.headPid id s'.lk.kernel = Locking.headPid id s.lk.kernel by rw [hkernel]; rfl,
      hprocs]
    by_cases hcur : Locking.headPid id s.lk.kernel = s.sched.currentPid
    · rw [hcur, upd_same, hp']
      rw [hcur] at hwaits
      have he : lockid = id := by simpa [Locking.Proc.Waits, hpc] using hwaits
      exact .inl (by rw [he])
    · rwa [upd_ne _ _ hcur]
  | unlock lockid =>
    unfold Sys.wakingAfter at hw
    dsimp only at hw
    split at hw
    · rename_i hwake
      obtain ⟨-, rfl⟩ := Prod.mk.inj (Option.some.inj hw)
      have hid : lockid ≠ -1 := by
        rintro rfl
        cases hwake
      exact (hg.queued lockid hid).woken hid hl hwake
    · cases hw
  | wake => cases hw
  | _ =>
    rw [show s'.lk = s.lk from hl]
    exact hg.waking p id hw

theorem Gone.step (hg : Gone s f) (h : Inv s l f) (hstep : Step s x s') (hflat : FlatSections s x) :
    Gone s' (written f (s.writes x)) :=
  ⟨fun _ hid => hg.step_queued hstep hflat hid, fun _ _ hw => hg.step_waking hstep hw,
    hg.step_status h hstep, fun _ hp => hg.step_outside hstep hp⟩

/-- The task has exited, in a state of a flat run. -/
def Dead (a : Nat) (s : Sys) : Prop :=
  ∃ l f, Inv s l f ∧ Gone s f ∧ a ∈ l ∧ f (s.sched.task a).pid = 2

theorem Dead.step {a : Nat} (hd : Dead a s) (hstep : Step s x s') (hflat : FlatSections s x) :
    Dead a s' := by
  obtain ⟨l, f, h, hg, ha, h2⟩ := hd
  obtain ⟨l', h', hkept⟩ := h.step hstep
  obtain ⟨ha', hpid⟩ := hkept.old a ha
  refine ⟨l', _, h', hg.step h hstep hflat, ha', ?_⟩
  rw [hpid]
  by_cases hx : x = .exit
  · subst hx
    unfold written Sys.writes upd
    dsimp only
    split
    · rfl
    · exact h2
  · cases hw : s.writes x with
    | none => exact h2
    | some w =>
      obtain ⟨pid, st⟩ := w
      have hne := (hg.writes h hstep hx hw).2
      have hpp : (s.sched.task a).pid ≠ pid := by
        rintro rfl
        exact hne ((hg.status _).1 h2)
      unfold written
      dsimp only
      rwa [upd_ne _ _ hpp]

theorem Dead.status {a : Nat} (hd : Dead a s) : (s.sched.task a).status = 2 := by
  obtain ⟨l, f, h, -, ha, h2⟩ := hd
  rw [h.tracks a ha, h2]

/-- **An exited task never runs again**: in every flat run its status stays 2, `switch_task` does not
select it, and no step makes it the current task once another one is. -/
theorem exited_for_good {s₀ s₁ : Sys}
    (h : Reach Init (fun s x s' => Step s x s' ∧ FlatSections s x) s₀) (hexit : Step s₀ .exit s₁)
    (hlater : Reach (· = s₁) (fun s x s' => Step s x s' ∧ FlatSections s x) s) :
    (s.sched.task s₀.sched.current).status = 2 ∧
      (∀ fuel sched, switchTask fuel s.sched = some sched → sched.current ≠ s₀.sched.current) ∧
      ∀ x s', Step s x s' → FlatSections s x → s'.sched.current = s₀.sched.current →
        s.sched.current = s₀.sched.current := by
  obtain ⟨l, f, hinv, hg⟩ := h.invariant (P := fun s => ∃ l f, Inv s l f ∧ Gone s f)
    (fun s hs => by
      obtain ⟨l, hinv⟩ := Inv.init hs
      exact ⟨l, _, hinv, .init hs⟩)
    fun s x s' hs hx => by
      obtain ⟨l, f, hinv, hg⟩ := hs
      obtain ⟨l', hinv', -⟩ := hinv.step hx.1
      exact ⟨l', _, hinv', hg.step hinv hx.1 hx.2⟩
  have hdead : Dead s₀.sched.current s₁ := by
    obtain ⟨l', hinv', hkept⟩ := hinv.step hexit
    obtain ⟨ha, hpid⟩ := hkept.old _ hinv.list.current
    refine ⟨l', _, hinv', hg.step hinv hexit nofun, ha, ?_⟩
    rw [hpid]
    exact upd_same _ _ _
  have hd := hlater.invariant (P := Dead s₀.sched.current) (fun s hs => hs ▸ hdead)
    fun s x s' hd hx => hd.step hx.1 hx.2
  refine ⟨hd.status, fun fuel sched hs he => ?_, fun x s' hstep hflat he => ?_⟩
  · have hstatus := hd.status
    obtain ⟨l, f, hinv, -⟩ := hd
    obtain ⟨a, -, rfl, h0⟩ := hinv.list.switchTask hs
    rw [show a = s₀.sched.current from he] at h0
    rw [hstatus] at h0
    cases h0
  · have hd' := (hd.step hstep hflat).status
    obtain ⟨l, f, hinv, -⟩ := hd
    obtain ⟨l', -, hkept⟩ := hinv.step hstep
    rcases hkept.current with hsame | h0
    · rw [← hsame, he]
    · rw [he, hd'] at h0
      cases h0

end

/-- A step with fuel for ten tasks, if it is flat. -/
def flatStep (s : Sys) (x : Act) : Option Sys :=
  match x with
  | .lock lockid lck =>
    if lockid ∈ (s.lk.procs s.sched.currentPid).held then none else act 10 s (.lock lockid lck)
  | x => act 10 s x

theorem flatStep_step {s s' : Sys} {x : Act} (h : flatStep s x = some s') :
    Step s x s' ∧ FlatSections s x := by
  unfold flatStep at h
  split at h
  · split at h
    · cases h
    · rename_i hno
      refine ⟨⟨10, h⟩, fun lockid lck hx => ?_⟩
      obtain ⟨rfl, -⟩ := Act.lock.inj hx
      exact hno
  · rename_i hno
    exact ⟨⟨10, h⟩, fun lockid lck hx => absurd hx (hno lockid lck)⟩

/-- Task 1 exits, and the idle task runs on. -/
theorem exited_for_good_run : ∃ s₀ s₁ s, runList flatStep [.fork 32, .timer] booted = some s₀ ∧
    flatStep s₀ .exit = some s₁ ∧ runList flatStep [.yield, .key 30, .timer] s₁ = some s ∧
    (s.sched.task s₀.sched.current).status = 2 := by
  have hrun : (runList flatStep [.fork 32, .timer] booted).isSome := by decide
  obtain ⟨s₀, h₀⟩ := Option.isSome_iff_exists.1 hrun
  have hrun' : ((runList flatStep [.fork 32, .timer] booted).bind fun s =>
      flatStep s .exit).isSome := by decide
  rw [h₀, Option.bind_some] at hrun'
  obtain ⟨s₁, h₁⟩ := Option.isSome_iff_exists.1 hrun'
  have hrun'' : ((runList flatStep [.fork 32, .timer] booted).bind fun s =>
      (flatStep s .exit).bind (runList flatStep [.yield, .key 30, .timer])).isSome := by decide
  rw [h₀, Option.bind_some, h₁] at hrun''
  obtain ⟨s, h⟩ := Option.isSome_iff_exists.1 hrun''
  exact ⟨s₀, s₁, s, h₀, h₁, h, (exited_for_good
    (.of_list (fun _ _ _ => flatStep_step) (.start init_booted) h₀) (flatStep_step h₁).1
    (.of_list (fun _ _ _ => flatStep_step) (.start rfl) h)).1⟩

end Tasks
