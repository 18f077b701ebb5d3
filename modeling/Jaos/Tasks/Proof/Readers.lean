import Jaos.Locking.Fifo
import Jaos.Tasks.System

/-!
# Who is inside `readline`

No other function takes `keyboard_lock`, so this lock is used flatly whatever the tasks do with the other
locks: the task inside `readline` owns it, there is one at most, and between the two assignments to
`occupant` this is its pid (`Readers`).
-/

namespace Locking

open Lib

/-- The lock has a list in the order of entry. -/
def Queued (id : Int) (s : Sys) : Prop := ∃ t queues, Ordered id s t queues

section
variable {s s' : Sys} {id : Int} {p q pid : Nat} {a : Act}

theorem Queued.init (h : Init s) : Queued id s := ⟨[], fun _ => [], .init h⟩

theorem Queued.step (h : Queued id s) (hid : id ≠ -1) (hstep : act s pid a = some s')
    (hflat : Flat id s (pid, a)) : Queued id s' := by
  obtain ⟨t, queues, h⟩ := h
  obtain ⟨queues', h'⟩ := h.step (x := (pid, a)) hid hstep hflat
  exact ⟨_, queues', h'⟩

/-- The process inside a section is the head of the queue. -/
theorem Queued.owner (h : Queued id s) (hid : id ≠ -1) (hp : id ∈ (s.procs p).held) :
    headPid id s.kernel = p := by
  obtain ⟨t, queues, h⟩ := h
  have hhead := h.head p hp
  rw [← h.pids] at hhead
  cases hq : queues id with
  | nil => simp [hq, pids] at hhead
  | cons b l =>
    have hl := h.lists.listed id hid
    rw [hq] at hl hhead
    rw [pids, List.map_cons, List.head?_cons, ← hl.head.2] at hhead
    exact Option.some.inj hhead

theorem Queued.unique (h : Queued id s) (hid : id ≠ -1) (hp : id ∈ (s.procs p).held)
    (hq : id ∈ (s.procs q).held) : p = q := (h.owner hid hp).symm.trans (h.owner hid hq)

theorem Queued.single (h : Queued id s) (p : Nat) : (s.procs p).held.count id ≤ 1 := by
  obtain ⟨t, queues, h⟩ := h
  exact h.single p

theorem Queued.outside (h : Queued id s) (hp : (s.procs p).Waits id) : id ∉ (s.procs p).held := by
  obtain ⟨t, queues, h⟩ := h
  exact h.outside p hp

/-- What a step does to the process that takes it. -/
def Acts (p p' : Proc) : Act → Prop
  | .lock lockid _ => p.pc = .run ∧ (p' = p.enter lockid ∨ p' = { p with pc := .check lockid })
  | .check => ∃ lockid, p.pc = .check lockid ∧
      (p' = p.enter lockid ∨ p' = { p with pc := .block lockid })
  | .block => ∃ lockid, p.pc = .block lockid ∧ p' = { p with pc := .check lockid }
  | .unlock lockid => p.pc = .run ∧ p.held.head? = some lockid ∧ p' = p.leave lockid

theorem act_procs (h : act s pid a = some s') :
    ∃ p', s'.procs = upd s.procs pid p' ∧ Acts (s.procs pid) p' a := by
  unfold act at h
  cases a with
  | lock lockid lck =>
    dsimp only at h
    split at h
    · rename_i hc
      cases h
      refine ⟨_, rfl, hc.1, ?_⟩
      split
      · exact .inl rfl
      · exact .inr rfl
    · cases h
  | check =>
    dsimp only at h
    split at h
    · rename_i lockid hpc
      cases h
      refine ⟨_, rfl, lockid, hpc, ?_⟩
      split
      · exact .inl rfl
      · exact .inr rfl
    · cases h
  | block =>
    dsimp only at h
    split at h
    · rename_i lockid hpc
      cases h
      exact ⟨_, rfl, lockid, hpc, rfl⟩
    · cases h
  | unlock lockid =>
    dsimp only at h
    split at h
    · rename_i hc
      cases h
      exact ⟨_, rfl, hc.1, hc.2, rfl⟩
    · cases h

end

end Locking

namespace Tasks

open Lib

/-- Not inside `readline`, or before its call of `lock`. -/
def Point.away : Point → Bool
  | .user | .calling | .exited => true
  | _ => false

/-- Between the two assignments to `occupant`. -/
def Point.loops : Point → Bool
  | .clearing | .testing | .blocking | .taking | .reading | .echoing | .echoed | .ending | .ended
  | .leaving => true
  | _ => false

/-- The part of a task in `keyboard_lock`. -/
def Placed (pt : Point) (p : Locking.Proc) : Prop :=
  if pt.away then keyboardLock ∉ p.held ∧ ¬ p.Waits keyboardLock
  else keyboardLock ∈ p.held ∨ pt = .called ∧ p.Waits keyboardLock

structure Readers (lk : Locking.Sys) (occupant : Nat) (users : Nat → User) : Prop where
  queue : Locking.Queued keyboardLock lk
  placed : ∀ p, Placed (users p).point (lk.procs p)
  inside : ∀ p, (users p).point.loops → occupant = p
  occupied : occupant ≠ 0 → (users occupant).point.loops

theorem keyboardLock_ne : keyboardLock ≠ -1 := by decide

section
variable {lk lk' : Locking.Sys} {occupant pid : Nat} {users : Nat → User} {u : User} {pt : Point}
  {p p' : Locking.Proc} {lockid : Int} {lck : Nat}

/-! ## One task -/

theorem Placed.held (h : Placed pt p) (haway : pt.away = false) (hcalled : pt ≠ .called) :
    keyboardLock ∈ p.held := by
  unfold Placed at h
  rw [haway] at h
  exact h.resolve_right fun hw => hcalled hw.1

theorem Placed.away (h : Placed pt p) (haway : pt.away = true) :
    keyboardLock ∉ p.held ∧ ¬ p.Waits keyboardLock := by
  unfold Placed at h
  rwa [if_pos haway] at h

theorem Placed.lock (h : Placed pt p) (hmay : pt.mayLock lockid)
    (hact : Locking.Acts p p' (.lock lockid lck)) : Placed pt.locking p' := by
  obtain ⟨hrun, hp'⟩ := hact
  have hkeep : keyboardLock ∈ p.held → keyboardLock ∈ p'.held := by
    intro hk
    rcases hp' with rfl | rfl
    · exact List.mem_cons_of_mem _ hk
    · exact hk
  cases pt with
  | user =>
    obtain ⟨hout, -⟩ := h.away rfl
    have hne : lockid ≠ keyboardLock := hmay
    refine And.intro ?_ ?_
    · rcases hp' with rfl | rfl
      · simp [Locking.Proc.enter, hout, hne.symm]
      · exact hout
    · rcases hp' with rfl | rfl
      · exact Locking.Proc.not_waits rfl
      · simp [Locking.Proc.Waits, hne]
  | calling =>
    have he : lockid = keyboardLock := hmay
    subst he
    rcases hp' with rfl | rfl
    · exact .inl List.mem_cons_self
    · exact .inr ⟨rfl, .inl rfl⟩
  | echoing => exact .inl (hkeep (h.held rfl (by simp)))
  | ending => exact .inl (hkeep (h.held rfl (by simp)))
  | _ => exact absurd hmay not_false

theorem Placed.check (h : Placed pt p) (hact : Locking.Acts p p' .check) : Placed pt p' := by
  obtain ⟨id, hpc, hp'⟩ := hact
  have hwaits : p'.Waits keyboardLock → p.Waits keyboardLock := by
    rcases hp' with rfl | rfl
    · exact fun hw => absurd hw (Locking.Proc.not_waits rfl)
    · simp [Locking.Proc.Waits, hpc]
  unfold Placed at h ⊢
  split
  · rename_i haway
    rw [if_pos haway] at h
    refine ⟨?_, fun hw => h.2 (hwaits hw)⟩
    rcases hp' with rfl | rfl
    · -- the lock entered is another one
      have hne : keyboardLock ≠ id := fun he => h.2 (.inl (he ▸ hpc))
      simp [Locking.Proc.enter, h.1, hne]
    · exact h.1
  · rename_i haway
    rw [if_neg haway] at h
    rcases h with hk | ⟨hcalled, hw⟩
    · refine .inl ?_
      rcases hp' with rfl | rfl
      · exact List.mem_cons_of_mem _ hk
      · exact hk
    · have he : id = keyboardLock := by simpa [Locking.Proc.Waits, hpc] using hw
      rcases hp' with rfl | rfl
      · exact .inl (he ▸ List.mem_cons_self)
      · exact .inr ⟨hcalled, .inr (he ▸ rfl)⟩

theorem Placed.block (h : Placed pt p) (hact : Locking.Acts p p' .block) : Placed pt p' := by
  obtain ⟨id, hpc, rfl⟩ := hact
  have hwaits : ({ p with pc := .check id } : Locking.Proc).Waits keyboardLock ↔
      p.Waits keyboardLock := by simp [Locking.Proc.Waits, hpc]
  unfold Placed at h ⊢
  rwa [hwaits]

theorem Placed.unlock (h : Placed pt p) (hmay : pt.mayUnlock lockid)
    (hsingle : p.held.count keyboardLock ≤ 1) (hact : Locking.Acts p p' (.unlock lockid)) :
    Placed pt.unlocked p' := by
  obtain ⟨hrun, hhead, rfl⟩ := hact
  obtain ⟨rest, hrest⟩ : ∃ rest, p.held = lockid :: rest := by
    cases hh : p.held with
    | nil => simp [hh] at hhead
    | cons b rest => exact ⟨rest, by simpa [hh] using hhead⟩
  have hheld : (p.leave lockid).held = rest := by simp [Locking.Proc.leave, hrest]
  have hwaits : ¬ (p.leave lockid).Waits keyboardLock := Locking.Proc.not_waits hrun
  have hkeep : lockid = monitorLock → keyboardLock ∈ p.held → keyboardLock ∈ (p.leave lockid).held := by
    intro he hk
    rw [hrest, he] at hk
    rw [hheld]
    exact (List.mem_cons.1 hk).resolve_left (by decide)
  cases pt with
  | user =>
    obtain ⟨hout, -⟩ := h.away rfl
    refine And.intro ?_ hwaits
    rw [hheld]
    exact fun hk => hout (hrest ▸ List.mem_cons_of_mem _ hk)
  | echoed => exact .inl (hkeep hmay (h.held rfl (by simp)))
  | ended => exact .inl (hkeep hmay (h.held rfl (by simp)))
  | unlocking =>
    have he : lockid = keyboardLock := hmay
    refine And.intro ?_ hwaits
    rw [hheld]
    intro hk
    rw [hrest, he, List.count_cons_self] at hsingle
    have := List.count_pos_iff.2 hk
    omega
  | _ => exact absurd hmay not_false

/-! ## All tasks -/

theorem Readers.init (hl : Locking.Init lk) (husers : ∀ p, (users p).point = .user) :
    Readers lk 0 users := by
  refine ⟨.init hl, fun p => ?_, fun p hp => ?_, fun h => absurd rfl h⟩
  · rw [husers p]
    refine And.intro ?_ (Locking.Proc.not_waits (hl.2 p).1)
    rw [(hl.2 p).2.1]
    exact List.not_mem_nil
  · rw [husers p] at hp
    cases hp

/-- A step of a task that stays on its side of the assignments to `occupant`. -/
theorem Readers.move (h : Readers lk occupant users) (hq : Locking.Queued keyboardLock lk')
    (hprocs : lk'.procs = upd lk.procs pid p') (hplaced : Placed u.point p')
    (hloops : u.point.loops = (users pid).point.loops) : Readers lk' occupant (upd users pid u) := by
  have hl : ∀ p, (upd users pid u p).point.loops = (users p).point.loops := by
    intro p
    by_cases hp : p = pid
    · rw [hp, upd_same, hloops]
    · rw [upd_ne _ _ hp]
  refine ⟨hq, fun p => ?_, fun p hp => h.inside p (by rwa [hl] at hp), fun h0 => ?_⟩
  · rw [hprocs]
    by_cases hp : p = pid
    · rw [hp, upd_same, upd_same]
      exact hplaced
    · rw [upd_ne _ _ hp, upd_ne _ _ hp]
      exact h.placed p
  · rw [hl]
    exact h.occupied h0

/-- The task stays at its point. -/
theorem Readers.stay (h : Readers lk occupant users) (hu : u.point = (users pid).point) :
    Readers lk occupant (upd users pid u) := by
  refine h.move h.queue (upd_self lk.procs pid).symm ?_ (by rw [hu])
  rw [hu]
  exact h.placed pid

/-- The step of `readline` to another point, without a change of the locks. -/
theorem Readers.go (h : Readers lk occupant users)
    (haway : u.point.away = (users pid).point.away)
    (hcalled : (users pid).point = .called → keyboardLock ∈ (lk.procs pid).held)
    (hloops : u.point.loops = (users pid).point.loops) : Readers lk occupant (upd users pid u) := by
  refine h.move h.queue (upd_self lk.procs pid).symm ?_ hloops
  · have := h.placed pid
    unfold Placed at this ⊢
    rw [haway]
    split
    · rename_i ha
      rwa [if_pos ha] at this
    · rename_i ha
      rw [if_neg ha] at this
      exact .inl (this.elim id fun hw => hcalled hw.1)

/-- A call of `lock` is flat for `keyboard_lock`. -/
theorem Readers.flat (h : Readers lk occupant users) (hmay : (users pid).point.mayLock lockid) :
    Locking.Flat keyboardLock lk (pid, .lock lockid lck) := by
  intro lck' hx
  obtain ⟨rfl, -⟩ := Locking.Act.lock.inj hx
  have hplaced := h.placed pid
  cases hpt : (users pid).point with
  | calling =>
    rw [hpt] at hplaced
    exact (hplaced.away rfl).1
  | user =>
    rw [hpt] at hmay
    exact absurd rfl hmay
  | echoing =>
    rw [hpt] at hmay
    exact absurd hmay (by decide)
  | ending =>
    rw [hpt] at hmay
    exact absurd hmay (by decide)
  | _ =>
    rw [hpt] at hmay
    exact absurd hmay not_false

theorem Point.locking_loops : pt.locking.loops = pt.loops := by
  cases pt <;> rfl

theorem Point.unlocked_loops : pt.unlocked.loops = pt.loops := by
  cases pt <;> rfl

theorem Readers.lock (h : Readers lk occupant users) (hmay : (users pid).point.mayLock lockid)
    (hact : Locking.act lk pid (.lock lockid lck) = some lk')
    (hu : u.point = (users pid).point.locking) : Readers lk' occupant (upd users pid u) := by
  obtain ⟨p', hprocs, hp'⟩ := Locking.act_procs hact
  refine h.move (h.queue.step keyboardLock_ne hact (h.flat hmay)) hprocs ?_ ?_
  · rw [hu]
    exact (h.placed pid).lock hmay hp'
  · rw [hu]
    exact Point.locking_loops

theorem Readers.check (h : Readers lk occupant users)
    (hact : Locking.act lk pid .check = some lk') : Readers lk' occupant users := by
  obtain ⟨p', hprocs, hp'⟩ := Locking.act_procs hact
  have := h.move (h.queue.step keyboardLock_ne hact nofun) hprocs ((h.placed pid).check hp') rfl
  rwa [upd_self] at this

theorem Readers.block (h : Readers lk occupant users)
    (hact : Locking.act lk pid .block = some lk') (hu : u.point = (users pid).point) :
    Readers lk' occupant (upd users pid u) := by
  obtain ⟨p', hprocs, hp'⟩ := Locking.act_procs hact
  refine h.move (h.queue.step keyboardLock_ne hact nofun) hprocs ?_ (by rw [hu])
  rw [hu]
  exact (h.placed pid).block hp'

theorem Readers.unlock (h : Readers lk occupant users) (hmay : (users pid).point.mayUnlock lockid)
    (hact : Locking.act lk pid (.unlock lockid) = some lk')
    (hu : u.point = (users pid).point.unlocked) : Readers lk' occupant (upd users pid u) := by
  obtain ⟨p', hprocs, hp'⟩ := Locking.act_procs hact
  refine h.move (h.queue.step keyboardLock_ne hact nofun) hprocs ?_ ?_
  · rw [hu]
    exact (h.placed pid).unlock hmay (h.queue.single pid) hp'
  · rw [hu]
    exact Point.unlocked_loops

/-- The only task inside `readline`. -/
theorem Readers.alone (h : Readers lk occupant users) (hk : keyboardLock ∈ (lk.procs pid).held)
    {q : Nat} (hq : (users q).point.loops) : q = pid := by
  refine h.queue.unique keyboardLock_ne ((h.placed q).held ?_ ?_) hk
  · cases hpt : (users q).point <;> simp_all [Point.loops, Point.away]
  · intro hpt
    rw [hpt] at hq
    cases hq

/-- `occupant = get_lock_owner(keyboard_lock)`. -/
theorem Readers.occupy (h : Readers lk occupant users) (hpt : (users pid).point = .called)
    (hrun : (lk.procs pid).pc = .run) (hu : u.point = .clearing) :
    Readers lk (Locking.headPid keyboardLock lk.kernel) (upd users pid u) := by
  have hk : keyboardLock ∈ (lk.procs pid).held := by
    have := h.placed pid
    rw [hpt] at this
    exact this.resolve_right fun hw => Locking.Proc.not_waits hrun hw.2
  have hown := h.queue.owner keyboardLock_ne hk
  refine ⟨h.queue, fun p => ?_, fun p hp => ?_, fun _ => ?_⟩
  · by_cases hp : p = pid
    · rw [hp, upd_same, hu]
      exact .inl hk
    · rw [upd_ne _ _ hp]
      exact h.placed p
  · by_cases hpp : p = pid
    · rw [hpp, hown]
    · rw [upd_ne _ _ hpp] at hp
      exact absurd (h.alone hk hp) hpp
  · rw [hown, upd_same, hu]
    rfl

/-- `occupant = 0`. -/
theorem Readers.vacate (h : Readers lk occupant users) (hpt : (users pid).point = .leaving)
    (hu : u.point = .unlocking) : Readers lk 0 (upd users pid u) := by
  have hk : keyboardLock ∈ (lk.procs pid).held := (h.placed pid).held (by rw [hpt]; rfl)
    (by rw [hpt]; nofun)
  refine ⟨h.queue, fun p => ?_, fun p hp => ?_, fun h0 => absurd rfl h0⟩
  · by_cases hp : p = pid
    · rw [hp, upd_same, hu]
      exact .inl hk
    · rw [upd_ne _ _ hp]
      exact h.placed p
  · by_cases hpp : p = pid
    · rw [hpp, upd_same, hu] at hp
      cases hp
    · rw [upd_ne _ _ hpp] at hp
      exact absurd (h.alone hk hp) hpp

end

end Tasks
