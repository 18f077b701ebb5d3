import Jaos.Tasks.Proof.Readers
import Jaos.Tasks.Proof.TaskList

/-!
# The invariant of the tasks

`Inv s l f`: the tasks are the list `l`, their statuses are those of `f` by pid, and the tasks inside
`readline` are where `Readers` says. Every step keeps it (`Inv.step`), and `Sys.writes` says which status
the step changes; the claims about statuses need no other look at the steps.
-/

namespace Tasks

open Lib

structure Inv (s : Sys) (l : List Nat) (f : Nat → Nat) : Prop where
  list : TaskList s.sched l
  tracks : Tracks l f s.sched
  readers : Readers s.lk s.kb.occupant s.users
  unborn : ∀ p, s.sched.nextPid ≤ p → s.users p = ⟨.user, [], false⟩

/-- The pid and the status of the `change_task_status` in the step, or of the new task. -/
def Sys.writes (s : Sys) : Act → Option (Nat × Nat)
  | .key scancode =>
    let kb := s.kb.handle scancode
    if kb.occupant ≠ 0 ∧ kb.newPress then some (kb.occupant, 0) else none
  | .block => some (s.sched.currentPid, 1)
  | .wake => s.waking.map fun w => (Locking.headPid w.2 s.lk.kernel, 0)
  | .fork _ => some (s.sched.nextPid, 0)
  | .exit => some (s.sched.currentPid, 2)
  | .read =>
    if (s.users s.sched.currentPid).point = .blocking then some (s.kb.occupant, 1) else none
  | _ => none

def written (f : Nat → Nat) : Option (Nat × Nat) → Nat → Nat
  | none => f
  | some (pid, status) => upd f pid status

/-- The old tasks are still there, and another one runs only with the status 0. -/
structure Kept (l l' : List Nat) (s s' : Sched) : Prop where
  old : ∀ a ∈ l, a ∈ l' ∧ (s'.task a).pid = (s.task a).pid
  current : s'.current = s.current ∨ (s'.task s'.current).status = 0

section
variable {s s' : Sys} {l : List Nat} {f : Nat → Nat} {x : Act} {sched sched' : Sched} {u : User}
  {lk : Locking.Sys} {occupant fuel pid status : Nat}

theorem Kept.refl : Kept l l sched sched := ⟨fun _ ha => ⟨ha, rfl⟩, .inl rfl⟩

theorem TaskList.change (hl : TaskList sched l) (ht : Tracks l f sched)
    (hrun : Tasks.changeTaskStatus fuel pid status sched = some sched') :
    TaskList sched' l ∧ Tracks l (upd f pid status) sched' ∧ Kept l l sched sched' ∧
      sched'.nextPid = sched.nextPid := by
  obtain ⟨hl', hcur, hnext, hpid, ht'⟩ := hl.changeTaskStatus hrun
  exact ⟨hl', ht' ht, ⟨fun a ha => ⟨ha, hpid a⟩, .inl hcur⟩, hnext⟩

theorem TaskList.switch (hl : TaskList sched l) (ht : Tracks l f sched)
    (hrun : Tasks.switchTask fuel sched = some sched') :
    TaskList sched' l ∧ Tracks l f sched' ∧ Kept l l sched sched' ∧
      sched'.nextPid = sched.nextPid := by
  obtain ⟨a, ha, rfl, h0⟩ := hl.switchTask hrun
  exact ⟨hl.run ha, ht, ⟨fun b hb => ⟨hb, rfl⟩, .inr h0⟩, rfl⟩

theorem Kept.trans {sched'' : Sched} (h : Kept l l sched sched') (h' : Kept l l sched' sched'')
    (hsame : sched'.current = sched.current) : Kept l l sched sched'' :=
  ⟨fun a ha => ⟨ha, (h'.old a ha).2.trans (h.old a ha).2⟩, h'.current.imp_left fun he => he.trans hsame⟩

theorem Inv.init (h : Init s) : ∃ l, Inv s l fun _ => 0 := by
  obtain ⟨⟨a, ha, htask, hlist, hcur, hlive⟩, hnext, hlocks, hocc, husers, -⟩ := h
  refine ⟨[a], ⟨?_, ?_, ?_, ?_⟩, ?_, ?_, fun p _ => husers p⟩
  · rw [hlist]
    refine ⟨rfl, ha, ?_⟩
    show (s.sched.task a).next = 0
    rw [htask]
  · rw [hnext, List.map_singleton, htask]
    rfl
  · rw [hcur]
    exact List.mem_singleton_self a
  · rw [hlive]
    exact fun _ => Iff.rfl
  · intro b hb
    rw [List.mem_singleton.1 hb, htask]
  · rw [hocc]
    exact .init hlocks fun p => by rw [husers p]

/-- Only born tasks run. -/
theorem Inv.unborn_upd (h : Inv s l f) {n : Nat} (hn : s.sched.nextPid ≤ n) (p : Nat) (hp : n ≤ p) :
    upd s.users s.sched.currentPid u p = ⟨.user, [], false⟩ := by
  have := h.list.current_pid
  rw [upd_ne _ _ (by omega)]
  exact h.unborn p (by omega)

/-- A step that leaves the tasks and the locks alone. -/
theorem Inv.go (h : Inv s l f) (hsched : s'.sched = s.sched)
    (husers : s'.users = upd s.users s.sched.currentPid u)
    (hr : Readers s'.lk s'.kb.occupant s'.users) : Inv s' l f := by
  refine ⟨by rw [hsched]; exact h.list, by rw [hsched]; exact h.tracks, hr, ?_⟩
  rw [hsched, husers]
  exact h.unborn_upd (Nat.le_refl _)

theorem writes_read (hpt : (s.users s.sched.currentPid).point ≠ .blocking) : s.writes .read = none :=
  if_neg hpt

/-- A step of `readline` that only moves on. -/
theorem Inv.next (h : Inv s l f) (hsched : s'.sched = s.sched) (hlk : s'.lk = s.lk)
    (hocc : s'.kb.occupant = s.kb.occupant)
    (husers : s'.users = upd s.users s.sched.currentPid u)
    (hcalled : (s.users s.sched.currentPid).point ≠ .called)
    (haway : u.point.away = (s.users s.sched.currentPid).point.away)
    (hloops : u.point.loops = (s.users s.sched.currentPid).point.loops) : Inv s' l f := by
  refine h.go hsched husers ?_
  rw [hlk, hocc, husers]
  exact h.readers.go haway (fun hc => absurd hc hcalled) hloops

/-- The steps of `readline`. -/
theorem Inv.read (h : Inv s l f) (hrun : (s.lk.procs s.sched.currentPid).pc = .run)
    (hstep : read fuel s.sched.currentPid s = some s') :
    Inv s' l (written f (s.writes .read)) ∧ Kept l l s.sched s'.sched := by
  unfold Tasks.read at hstep
  cases hpt : (s.users s.sched.currentPid).point with
  | called =>
    rw [hpt] at hstep
    cases hstep
    rw [writes_read (by simp [hpt])]
    exact ⟨h.go rfl rfl (h.readers.occupy hpt hrun rfl), .refl⟩
  | clearing =>
    rw [hpt] at hstep
    cases hstep
    rw [writes_read (by simp [hpt])]
    exact ⟨h.next rfl rfl rfl rfl (by simp [hpt]) (by rw [hpt]; rfl) (by rw [hpt]; rfl), .refl⟩
  | testing =>
    rw [hpt] at hstep
    cases hstep
    rw [writes_read (by simp [hpt])]
    refine ⟨h.next rfl rfl rfl rfl (by simp [hpt]) ?_ ?_, .refl⟩
    · rw [hpt]
      dsimp only
      split <;> rfl
    · rw [hpt]
      dsimp only
      split <;> rfl
  | blocking =>
    rw [hpt] at hstep
    obtain ⟨sched, hs, rfl⟩ := Option.map_eq_some_iff.1 hstep
    obtain ⟨hl, ht, hkept, hnext⟩ := h.list.change h.tracks hs
    have hw : s.writes .read = some (s.kb.occupant, 1) := if_pos hpt
    rw [hw]
    refine ⟨⟨hl, ht, ?_, ?_⟩, hkept⟩
    · unfold Sys.setYields Sys.goto
      dsimp only
      rw [upd_upd]
      exact h.readers.go (by rw [upd_same, hpt]; rfl) (by simp [hpt]) (by rw [upd_same, hpt]; rfl)
    · unfold Sys.setYields Sys.goto
      dsimp only
      rw [upd_upd]
      exact h.unborn_upd (by omega)
  | taking =>
    rw [hpt] at hstep
    cases hstep
    rw [writes_read (by simp [hpt])]
    exact ⟨h.next rfl rfl rfl rfl (by simp [hpt]) (by rw [hpt]; rfl) (by rw [hpt]; rfl), .refl⟩
  | reading =>
    rw [hpt] at hstep
    rw [writes_read (by simp [hpt])]
    dsimp only at hstep
    split at hstep
    · cases hstep
      exact ⟨h.next rfl rfl rfl rfl (by simp [hpt]) (by rw [hpt]; rfl) (by rw [hpt]; rfl), .refl⟩
    · cases hstep
      exact ⟨h.next rfl rfl rfl rfl (by simp [hpt]) (by rw [hpt]; rfl) (by rw [hpt]; rfl), .refl⟩
  | leaving =>
    rw [hpt] at hstep
    cases hstep
    rw [writes_read (by simp [hpt])]
    exact ⟨h.go rfl rfl (h.readers.vacate hpt rfl), .refl⟩
  | _ =>
    rw [hpt] at hstep
    cases hstep

/-- A step that leaves the users alone. -/
theorem Inv.same (h : Inv s l f) {l' : List Nat} {f' : Nat → Nat} (hl : TaskList s'.sched l')
    (ht : Tracks l' f' s'.sched) (hnext : s.sched.nextPid ≤ s'.sched.nextPid) (hlk : s'.lk = s.lk)
    (hocc : s'.kb.occupant = s.kb.occupant) (husers : s'.users = s.users) : Inv s' l' f' := by
  refine ⟨hl, ht, ?_, fun p hp => ?_⟩
  · rw [hlk, hocc, husers]
    exact h.readers
  · rw [husers]
    exact h.unborn p (by omega)

@[simp] theorem Keyboard.handle_occupant (scancode : BitVec 8) (kb : Keyboard) :
    (kb.handle scancode).occupant = kb.occupant := by
  unfold Keyboard.handle
  split <;> rfl

theorem Inv.key (h : Inv s l f) {scancode : BitVec 8} (hstep : act fuel s (.key scancode) = some s') :
    Inv s' l (written f (s.writes (.key scancode))) ∧ Kept l l s.sched s'.sched := by
  unfold act at hstep
  unfold Sys.writes
  dsimp only at hstep ⊢
  split at hstep
  · rename_i hc
    obtain ⟨sched, hs, rfl⟩ := Option.map_eq_some_iff.1 hstep
    obtain ⟨sched1, hs1, hs2⟩ := Option.bind_eq_some_iff.1 hs
    obtain ⟨hl1, ht1, hkept1, hnext1⟩ := h.list.change h.tracks hs1
    obtain ⟨hl2, ht2, hkept2, hnext2⟩ := hl1.switch ht1 hs2
    have hcur := (h.list.changeTaskStatus (f := f) hs1).2.1
    rw [if_pos hc]
    exact ⟨h.same hl2 ht2 (by dsimp only; omega) rfl (Keyboard.handle_occupant _ _) rfl,
      hkept1.trans hkept2 hcur⟩
  · rename_i hc
    cases hstep
    rw [if_neg hc]
    exact ⟨h.same h.list h.tracks (Nat.le_refl _) rfl (Keyboard.handle_occupant _ _) rfl, .refl⟩

/-- A step that changes the task that runs only. -/
theorem Inv.user (h : Inv s l f) {f' : Nat → Nat} (hl : TaskList s'.sched l)
    (ht : Tracks l f' s'.sched) (hnext : s'.sched.nextPid = s.sched.nextPid)
    (hr : Readers s'.lk s'.kb.occupant s'.users)
    (husers : s'.users = upd s.users s.sched.currentPid u) : Inv s' l f' := by
  refine ⟨hl, ht, hr, ?_⟩
  rw [husers, hnext]
  exact h.unborn_upd (Nat.le_refl _)

theorem Inv.exit (h : Inv s l f) (hstep : act fuel s .exit = some s') :
    Inv s' l (written f (s.writes .exit)) ∧ Kept l l s.sched s'.sched := by
  unfold act at hstep
  dsimp only at hstep
  split at hstep
  · rename_i hc
    obtain ⟨-, hpt⟩ := hc
    obtain ⟨sched, hs, rfl⟩ := Option.map_eq_some_iff.1 hstep
    obtain ⟨hl, ht, hkept, hnext⟩ := h.list.change h.tracks hs
    have hr : Readers s.lk s.kb.occupant (upd s.users s.sched.currentPid
        { s.users s.sched.currentPid with point := .exited, yields := true }) :=
      h.readers.go (by rw [hpt]; rfl) (by simp [hpt]) (by rw [hpt]; rfl)
    refine ⟨h.user hl ht hnext ?_ (upd_upd _ _ _ _), hkept⟩
    unfold Sys.setYields Sys.goto
    dsimp only
    rwa [upd_upd, upd_same]
  · cases hstep

theorem Inv.block (h : Inv s l f) (hstep : act fuel s .block = some s') :
    Inv s' l (written f (s.writes .block)) ∧ Kept l l s.sched s'.sched := by
  unfold act at hstep
  dsimp only at hstep
  split at hstep
  · obtain ⟨lk, hlk, hstep⟩ := Option.bind_eq_some_iff.1 hstep
    obtain ⟨sched, hs, rfl⟩ := Option.map_eq_some_iff.1 hstep
    obtain ⟨hl, ht, hkept, hnext⟩ := h.list.change h.tracks hs
    exact ⟨h.user hl ht hnext (h.readers.block hlk rfl) rfl, hkept⟩
  · cases hstep

theorem Inv.wake (h : Inv s l f) (hstep : act fuel s .wake = some s') :
    Inv s' l (written f (s.writes .wake)) ∧ Kept l l s.sched s'.sched := by
  unfold act at hstep
  unfold Sys.writes
  dsimp only at hstep ⊢
  cases hw : s.waking with
  | none =>
    rw [hw] at hstep
    cases hstep
  | some w =>
    rw [hw] at hstep
    dsimp only at hstep
    split at hstep
    · obtain ⟨sched, hs, rfl⟩ := Option.map_eq_some_iff.1 hstep
      obtain ⟨hl, ht, hkept, hnext⟩ := h.list.change h.tracks hs
      exact ⟨h.same hl ht (Nat.le_of_eq hnext.symm) rfl rfl rfl, hkept⟩
    · cases hstep

/-- **Every step keeps the invariant**, and the statuses are those before it but for the one that it
writes. -/
theorem Inv.step (h : Inv s l f) (hstep : Step s x s') :
    ∃ l', Inv s' l' (written f (s.writes x)) ∧ Kept l l' s.sched s'.sched := by
  obtain ⟨fuel, hstep⟩ := hstep
  cases x with
  | key scancode => exact ⟨l, h.key hstep⟩
  | exit => exact ⟨l, h.exit hstep⟩
  | block => exact ⟨l, h.block hstep⟩
  | wake => exact ⟨l, h.wake hstep⟩
  | timer =>
    obtain ⟨sched, hs, rfl⟩ := Option.map_eq_some_iff.1 hstep
    obtain ⟨hl, ht, hkept, hnext⟩ := h.list.switch h.tracks hs
    exact ⟨l, h.same hl ht (Nat.le_of_eq hnext.symm) rfl rfl rfl, hkept⟩
  | yield =>
    unfold act at hstep
    dsimp only at hstep
    split at hstep
    · obtain ⟨sched, hs, rfl⟩ := Option.map_eq_some_iff.1 hstep
      obtain ⟨hl, ht, hkept, hnext⟩ := h.list.switch h.tracks hs
      exact ⟨l, h.user hl ht hnext (h.readers.stay rfl) rfl, hkept⟩
    · cases hstep
  | lock lockid lck =>
    unfold act at hstep
    dsimp only at hstep
    split at hstep
    · rename_i hc
      obtain ⟨lk, hlk, rfl⟩ := Option.map_eq_some_iff.1 hstep
      exact ⟨l, h.user h.list h.tracks rfl (h.readers.lock hc.2.2 hlk rfl) rfl, .refl⟩
    · cases hstep
  | check =>
    unfold act at hstep
    dsimp only at hstep
    split at hstep
    · obtain ⟨lk, hlk, rfl⟩ := Option.map_eq_some_iff.1 hstep
      exact ⟨l, ⟨h.list, h.tracks, h.readers.check hlk, h.unborn⟩, .refl⟩
    · cases hstep
  | unlock lockid =>
    unfold act at hstep
    dsimp only at hstep
    split at hstep
    · rename_i hc
      obtain ⟨lk, hlk, rfl⟩ := Option.map_eq_some_iff.1 hstep
      exact ⟨l, h.user h.list h.tracks rfl (h.readers.unlock hc.2.2 hlk rfl) rfl, .refl⟩
    · cases hstep
  | fork newTask =>
    unfold act at hstep
    dsimp only at hstep
    split at hstep
    · rename_i hc
      obtain ⟨sched, hs, rfl⟩ := Option.map_eq_some_iff.1 hstep
      obtain ⟨hl, hcur, hnext, hpid, ht⟩ := h.list.fork hc.2.2.1 hc.2.2.2 hs
      refine ⟨_, h.same hl (ht h.tracks) (by dsimp only; omega) rfl rfl rfl, ?_, .inl hcur⟩
      exact fun a ha => ⟨List.mem_append_left _ ha, hpid a ha⟩
    · cases hstep
  | readline =>
    unfold act at hstep
    dsimp only at hstep
    split at hstep
    · rename_i hc
      cases hstep
      exact ⟨l, h.next rfl rfl rfl rfl (by simp [hc.2]) (by rw [hc.2]; rfl) (by rw [hc.2]; rfl),
        .refl⟩
    · cases hstep
  | read =>
    unfold act at hstep
    dsimp only at hstep
    split at hstep
    · rename_i hc
      exact ⟨l, h.read hc.2 hstep⟩
    · cases hstep

end

end Tasks
