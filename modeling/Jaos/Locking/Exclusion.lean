import Jaos.Locking.Proof.Queue

/-!
# Mutual exclusion

The owner of a lock is the process whose record heads the queue. There is no nesting count: the
first `unlock` of a process gives the lock away, an inner one of a nested section too, and `unlock`
expects that (its first branch: "this may happen if we unlocked somewhere deeper in stack"). So two
processes can be inside their outermost sections (`nested_not_exclusive`), while no two processes
are between the return of `lock` and their next `unlock` (`owners_exclusive`), as long as no process
that has lost the lock unlocks it under the only process in the queue (`Foreign`). In runs without
nested sections the two notions agree (`flat_exclusive`).
-/

namespace Locking

open Lib

section
variable {s s' : Sys} {id : Int} {queues : Int → List Nat}

/-- One lock has a new queue, the others keep theirs. -/
theorem Inv.update (hdis : ∀ id id' a, id ≠ -1 → id' ≠ -1 → a ∈ queues id → a ∈ queues id' → id = id')
    (hid : id ≠ -1) {q : List Nat} (hself : Queue s' id q)
    (hother : ∀ id', id' ≠ -1 → id' ≠ id → Queue s' id' (queues id'))
    (hmem : ∀ a ∈ q, a ∈ queues id ∨ ∀ id', id' ≠ -1 → a ∉ queues id') : Inv s' := by
  refine ⟨upd queues id q, fun id' hne => ?_, fun i j a hi hj hai haj => ?_⟩
  · by_cases he : id' = id
    · rw [he, upd_same]
      exact hself
    · rw [upd_ne _ _ he]
      exact hother id' hne he
  · -- a record of the new queue was in the old one, or in none
    have hnew : ∀ j, j ≠ -1 → j ≠ id → a ∈ q → a ∉ queues j := by
      intro j hj hne ha haj
      rcases hmem a ha with h | h
      · exact hne (hdis j id a hj hid haj h)
      · exact h j hj haj
    by_cases hii : i = id <;> by_cases hji : j = id
    · rw [hii, hji]
    · rw [hii, upd_same] at hai
      rw [upd_ne _ _ hji] at haj
      exact absurd haj (hnew j hj hji hai)
    · rw [hji, upd_same] at haj
      rw [upd_ne _ _ hii] at hai
      exact absurd hai (hnew i hi hii haj)
    · rw [upd_ne _ _ hii] at hai
      rw [upd_ne _ _ hji] at haj
      exact hdis i j a hi hj hai haj

theorem Inv.lock {pid lck : Nat} (inv : Inv s) (hrun : (s.procs pid).pc = .run) (hlck : lck ≠ 0)
    (hfresh : lck ∉ s.kernel.live) :
    Inv ⟨(lock pid id lck s.kernel).2, upd s.procs pid
      (if (lock pid id lck s.kernel).1 then (s.procs pid).enter id
      else { s.procs pid with pc := .check id })⟩ := by
  obtain ⟨queues, hq, hdis⟩ := inv
  have henter := Proc.local_enter (.inl hrun : _ ∨ _ = Pc.check id)
  -- the new record is in no queue
  have hnew : ∀ id', id' ≠ -1 → lck ∉ queues id' := fun id' hne h => hfresh ((hq id' hne).live _ h)
  unfold Locking.lock
  split
  · rename_i hid
    refine ⟨queues, fun id' hne => ?_, hdis⟩
    exact (hq id' hne).other (fun he => hne (he.trans hid)) henter rfl (fun _ _ => rfl) fun _ _ h => h
  · rename_i hid
    have h := hq id hid
    split
    · rename_i hhead
      have hacq := h.acquire pid (h.empty_iff.1 hhead) hlck
      refine Inv.update hdis hid hacq (fun id' hne he => ?_) fun a ha => .inr ?_
      · exact (hq id' hne).other he henter (upd_ne _ _ he)
          (fun a ha => upd_ne _ _ fun h => hnew id' hne (h ▸ ha)) fun _ _ h => List.mem_cons_of_mem _ h
      · rw [List.mem_singleton.1 ha]
        exact hnew
    · rename_i hhead
      have hne : queues id ≠ [] := fun h' => hhead (h.empty_iff.2 h')
      split
      · rename_i hpid
        refine Inv.update hdis hid (h.enter hne hpid) (fun id' hne he => ?_) fun a ha => .inl ha
        exact (hq id' hne).other he henter rfl (fun _ _ => rfl) fun _ _ h => h
      · rename_i hpid
        rcases List.eq_nil_or_concat (queues id) with hnil | ⟨m, t, hmt⟩
        · exact absurd hnil hne
        rw [List.concat_eq_append] at hmt
        have htail := h.tail m t hmt
        refine Inv.update hdis hid (h.append hmt hlck hfresh hrun hpid) (fun id' hne he => ?_)
          fun a ha => ?_
        · refine (hq id' hne).other he (Proc.local_wait hrun) (upd_ne _ _ he) (fun a ha => ?_)
            fun _ _ h => List.mem_cons_of_mem _ h
          have hat : a ≠ (s.kernel.locks id).tail := fun hat => he
            (hdis id' id a hne hid ha (by rw [hmt, hat, htail]; simp))
          exact (upd_ne _ _ hat).trans (upd_ne _ _ fun h => hnew id' hne (h ▸ ha))
        · rw [hmt]
          simp only [List.mem_append, List.mem_cons, List.not_mem_nil, or_false] at ha ⊢
          rcases ha with ha | ha | ha
          · exact .inl (.inl ha)
          · exact .inl (.inr ha)
          · exact .inr (ha ▸ hnew)

theorem Inv.unlock {pid : Nat} (inv : Inv s) (hrun : (s.procs pid).pc = .run)
    (hforeign : ¬ Foreign s pid id) :
    Inv ⟨unlock pid id s.kernel, upd s.procs pid ((s.procs pid).leave id)⟩ := by
  obtain ⟨queues, hq, hdis⟩ := inv
  have hleave : (s.procs pid).Local id ((s.procs pid).leave id) := Proc.local_leave
  unfold Locking.unlock
  split
  · rename_i hid
    refine ⟨queues, fun id' hne => ?_, hdis⟩
    exact (hq id' hne).other (fun he => hne (he.trans hid)) hleave rfl (fun _ _ => rfl) fun _ _ h => h
  · rename_i hid
    have h := hq id hid
    dsimp only
    split
    · rename_i hhead
      have hnil := h.empty_iff.1 hhead
      refine Inv.update hdis hid (h.leave hrun (fun a l hal => ?_) rfl rfl rfl) (fun id' hne he => ?_)
        fun a ha => .inl ha
      · rw [hnil] at hal
        cases hal
      · exact (hq id' hne).other he hleave rfl (fun _ _ => rfl) fun _ _ h => h
    · rename_i hhead
      obtain ⟨a, l, hal⟩ := List.exists_cons_of_ne_nil fun h' => hhead (h.empty_iff.2 h')
      have h' := h
      rw [hal] at h'
      obtain ⟨ha, hpid⟩ := h'.head
      -- another lock's records are not the head of this one
      have herase : ∀ id', id' ≠ -1 → id' ≠ id → ∀ b ∈ queues id', b ∈ s.kernel.live →
          b ∈ s.kernel.live.erase a := fun id' hne he b hb hl =>
        (List.mem_erase_of_ne fun hba => he (hdis id' id b hne hid hb (by rw [hal, hba]; simp))).2 hl
      rw [ha]
      split
      · rename_i hsingle
        obtain rfl := h'.single_iff.1 hsingle
        have hown : headPid id s.kernel = pid := by
          refine Classical.byContradiction fun hne => hforeign ⟨hid, hhead, ?_, hne⟩
          rw [ha]
          exact hsingle
        have hrel := h'.release (k := kfree a (setQueue id ⟨0, 0⟩ s.kernel)) rfl (hpid ▸ hown) hrun rfl
          rfl (by simp [kfree, setQueue]) (by simp)
        refine Inv.update hdis hid hrel (fun id' hne he => ?_) (by simp)
        exact (hq id' hne).other he hleave (upd_ne _ _ he) (fun _ _ => rfl) (herase id' hne he)
      · rename_i hsingle
        have hl : l ≠ [] := fun hl => hsingle (h'.single_iff.2 hl)
        split
        · rename_i hown
          have hrel := h'.release (k := changeTaskStatus (headPid id (kfree a (setQueue id
            ⟨(s.kernel.record a).next, (s.kernel.locks id).tail⟩ s.kernel))) 0 (kfree a (setQueue id
            ⟨(s.kernel.record a).next, (s.kernel.locks id).tail⟩ s.kernel))) rfl (hpid ▸ hown) hrun rfl
            rfl (by simp [changeTaskStatus, kfree, setQueue, hl])
            (by simp [changeTaskStatus, kfree, setQueue])
          refine Inv.update hdis hid hrel (fun id' hne he => ?_) fun b hb => .inl ?_
          · exact (hq id' hne).other he hleave (upd_ne _ _ he) (fun _ _ => rfl) (herase id' hne he)
          · rw [hal]
            exact List.mem_cons_of_mem _ hb
        · rename_i hown
          refine Inv.update hdis hid (h.leave hrun (fun b m hbm => ?_) rfl rfl rfl)
            (fun id' hne he => ?_) fun b hb => .inl hb
          · rw [hal] at hbm
            cases hbm
            exact fun he => hown (hpid.trans he)
          · exact (hq id' hne).other he hleave rfl (fun _ _ => rfl) fun _ _ h => h

/-! ## Runs -/

/-- A step of a process. -/
def Step (s : Sys) (x : Nat × Act) (s' : Sys) : Prop := act s x.1 x.2 = some s'

/-- The step is not an `unlock` that takes the lock from another process. -/
def NotForeign (s : Sys) (x : Nat × Act) : Prop := ∀ id, x.2 = .unlock id → ¬ Foreign s x.1 id

theorem Inv.init (h : Init s) : Inv s := by
  refine ⟨fun _ => [], fun id _ => ?_, by simp⟩
  obtain ⟨hlocks, hprocs⟩ := h
  constructor
  · simp [hlocks]
  · simp
  · simp
  · simp
  · intro p hp
    rw [(hprocs p).2.2 id] at hp
    cases hp
  · simp
  · intro p hp
    exact absurd hp (Proc.not_waits (hprocs p).1)

/-- **Every step but a foreign `unlock` keeps the queues.** -/
theorem Inv.step {x : Nat × Act} (inv : Inv s) (hstep : Step s x s') (hok : NotForeign s x) :
    Inv s' := by
  obtain ⟨pid, a⟩ := x
  unfold Step act at hstep
  cases a with
  | lock id lck =>
    dsimp only at hstep
    split at hstep
    · rename_i hc
      cases hstep
      exact inv.lock hc.1 hc.2.1 hc.2.2
    · cases hstep
  | check =>
    dsimp only at hstep
    split at hstep
    · rename_i id hpc
      cases hstep
      obtain ⟨queues, hq, hdis⟩ := inv
      split
      · rename_i hpid
        refine ⟨queues, fun id' hne => ?_, hdis⟩
        by_cases he : id' = id
        · subst he
          -- a waiting process is in the queue
          obtain ⟨a, ha, -⟩ := (hq id' hne).waiter pid (.inl hpc)
          exact (hq id' hne).enter (List.ne_nil_of_mem ha) hpid
        · exact (hq id' hne).other he (Proc.local_enter (.inr hpc)) rfl (fun _ _ => rfl)
            fun _ _ h => h
      · refine ⟨queues, fun id' hne => ?_, hdis⟩
        exact (hq id' hne).move rfl (fun i => by simp [Proc.Waits, hpc]) rfl rfl rfl
    · cases hstep
  | block =>
    dsimp only at hstep
    split at hstep
    · rename_i id hpc
      cases hstep
      obtain ⟨queues, hq, hdis⟩ := inv
      refine ⟨queues, fun id' hne => ?_, hdis⟩
      exact (hq id' hne).move rfl (fun i => by simp [Proc.Waits, hpc]) rfl rfl rfl
    · cases hstep
  | unlock id =>
    dsimp only at hstep
    split at hstep
    · rename_i hc
      cases hstep
      exact inv.unlock hc.1 (hok id rfl)
    · cases hstep

/-- Two owners of a lock are the same process. -/
theorem Inv.exclusive (inv : Inv s) (hid : id ≠ -1) {p q : Nat} (hp : (s.procs p).owns id = true)
    (hq : (s.procs q).owns id = true) : p = q := by
  obtain ⟨queues, hqueue, -⟩ := inv
  obtain ⟨a, l, ha, hpa⟩ := (hqueue id hid).owner p hp
  obtain ⟨b, m, hb, hqb⟩ := (hqueue id hid).owner q hq
  rw [ha] at hb
  cases hb
  rw [← hpa, hqb]

/-- **Owners exclude each other**: in every run without a foreign `unlock` no two processes are
between the return of `lock(id)` and their next `unlock(id)`. -/
theorem owners_exclusive
    (h : Reach Init (fun s x s' => Step s x s' ∧ NotForeign s x) s) (hid : id ≠ -1) {p q : Nat}
    (hp : (s.procs p).owns id = true) (hq : (s.procs q).owns id = true) : p = q :=
  (h.invariant (P := Inv) (fun _ => .init) fun _ _ _ inv hs => inv.step hs.1 hs.2).exclusive hid hp hq

/-! ## Sections without nesting -/

/-- An `unlock` in the step is that of an outermost section. -/
def Outermost (s : Sys) (x : Nat × Act) : Prop :=
  ∀ id, x.2 = .unlock id → id ∉ (s.procs x.1).held.tail

/-- In a run without inner `unlock` a process owns the locks of its sections. -/
theorem owns_step {x : Nat × Act} (hown : ∀ p, ∀ id ∈ (s.procs p).held, (s.procs p).owns id = true)
    (hstep : Step s x s') (hok : Outermost s x) :
    ∀ p, ∀ id ∈ (s'.procs p).held, (s'.procs p).owns id = true := by
  obtain ⟨pid, a⟩ := x
  -- only the process that moves changes
  have hupd : ∀ p' : Proc, (∀ id ∈ p'.held, p'.owns id = true) →
      ∀ p, ∀ id ∈ (upd s.procs pid p' p).held, (upd s.procs pid p' p).owns id = true := by
    intro p' hp' p
    by_cases hpp : p = pid
    · subst hpp
      rwa [upd_same]
    · rw [upd_ne _ _ hpp]
      exact hown p
  have henter : ∀ lockid, ∀ id ∈ ((s.procs pid).enter lockid).held,
      ((s.procs pid).enter lockid).owns id = true := by
    intro lockid id hid
    unfold Proc.enter at hid ⊢
    dsimp only at hid ⊢
    by_cases he : id = lockid
    · rw [he, upd_same]
    · rw [upd_ne _ _ he]
      exact hown pid id ((List.mem_cons.1 hid).resolve_left he)
  unfold Step act at hstep
  cases a with
  | lock lockid lck =>
    dsimp only at hstep
    split at hstep
    · cases hstep
      refine hupd _ ?_
      split
      · exact henter lockid
      · exact hown pid
    · cases hstep
  | check =>
    dsimp only at hstep
    split at hstep
    · cases hstep
      refine hupd _ ?_
      split
      · exact henter _
      · exact hown pid
    · cases hstep
  | block =>
    dsimp only at hstep
    split at hstep
    · cases hstep
      exact hupd _ (hown pid)
    · cases hstep
  | unlock lockid =>
    dsimp only at hstep
    split at hstep
    · cases hstep
      refine hupd _ fun id hid => ?_
      unfold Proc.leave at hid ⊢
      dsimp only at hid ⊢
      have hne : id ≠ lockid := fun he => hok lockid rfl (he ▸ hid)
      rw [upd_ne _ _ hne]
      exact hown pid id (List.mem_of_mem_tail hid)
    · cases hstep

/-- **Mutual exclusion of flat sections**: in every run in which only outermost sections are
unlocked, no two processes are inside a section of the same lock. -/
theorem flat_exclusive (h : Reach Init (fun s x s' => Step s x s' ∧ Outermost s x) s) (hid : id ≠ -1)
    {p q : Nat} (hp : id ∈ (s.procs p).held) (hq : id ∈ (s.procs q).held) : p = q := by
  have hinv : Inv s ∧ ∀ p, ∀ id ∈ (s.procs p).held, (s.procs p).owns id = true := by
    refine h.invariant
      (P := fun s => Inv s ∧ ∀ p, ∀ id ∈ (s.procs p).held, (s.procs p).owns id = true)
      (fun s hs => ⟨.init hs, fun p id hid => ?_⟩) fun s x s' inv hs => ?_
    · rw [(hs.2 p).2.1] at hid
      cases hid
    · obtain ⟨⟨inv, hown⟩, hstep, hok⟩ := And.intro inv hs
      refine ⟨inv.step hstep fun id hx hforeign => ?_, owns_step hown hstep hok⟩
      -- the process that unlocks is the owner
      obtain ⟨hne, hhead, -, hpid⟩ := hforeign
      obtain ⟨pid, a⟩ := x
      dsimp only at hx hpid
      subst hx
      unfold Step act at hstep
      dsimp only at hstep
      split at hstep
      · rename_i hc
        obtain ⟨queues, hqueue, -⟩ := inv
        obtain ⟨b, l, hb, hpb⟩ := (hqueue id hne).owner pid
          (hown pid id (List.mem_of_head? hc.2))
        have h := hqueue id hne
        rw [hb] at h
        exact hpid (h.head.2.trans hpb)
      · cases hstep
  exact hinv.1.exclusive hid (hinv.2 p id hp) (hinv.2 q id hq)

end

/-! ## Two runs -/

/-- Nothing allocated, nobody in a section. -/
def idle : Sys where
  kernel := { record := fun _ => ⟨0, 0⟩, locks := fun _ => ⟨0, 0⟩, status := fun _ => 0, live := [] }
  procs := fun _ => { pc := .run, held := [], owns := fun _ => false }

theorem init_idle : Init idle := ⟨fun _ => rfl, fun _ => ⟨rfl, rfl, fun _ => rfl⟩⟩

/-- The test for `NotForeign`. -/
def notForeign (s : Sys) : Nat × Act → Bool
  | (pid, .unlock id) => decide (¬ (id ≠ -1 ∧ (s.kernel.locks id).head ≠ 0 ∧
      (s.kernel.locks id).head = (s.kernel.locks id).tail ∧ headPid id s.kernel ≠ pid))
  | _ => true

/-- A step that passes the test. -/
def tested (s : Sys) (x : Nat × Act) : Option Sys :=
  if notForeign s x then act s x.1 x.2 else none

theorem tested_step {x : Nat × Act} {s s' : Sys} (h : tested s x = some s') :
    Step s x s' ∧ NotForeign s x := by
  unfold tested at h
  split at h
  · rename_i ht
    refine ⟨h, fun id hx hf => ?_⟩
    obtain ⟨pid, a⟩ := x
    dsimp only at hx
    subst hx
    exact of_decide_eq_true ht hf
  · cases h

/-- Process 1 nests two sections, process 2 waits for the lock and gets it. -/
theorem owners_exclusive_run :
    ∃ s, runList tested [(1, .lock 0 16), (1, .lock 0 32), (2, .lock 0 32), (1, .unlock 0),
      (2, .check)] idle = some s ∧ ∀ p q, (s.procs p).owns 0 = true → (s.procs q).owns 0 = true →
      p = q := by
  obtain ⟨s, hs⟩ : ∃ s, runList tested [(1, .lock 0 16), (1, .lock 0 32), (2, .lock 0 32),
      (1, .unlock 0), (2, .check)] idle = some s := by
    rw [← Option.isSome_iff_exists]
    decide
  exact ⟨s, hs, fun p q => owners_exclusive
    (.of_list (fun _ _ _ => tested_step) (.start init_idle) hs) (by decide)⟩

/-- **Nested sections do not exclude each other**: the inner `unlock` of process 1 frees the lock,
and process 2 enters while process 1 is still in its outermost section. -/
theorem nested_not_exclusive :
    ∃ s, Reach Init Step s ∧ 0 ∈ (s.procs 1).held ∧ 0 ∈ (s.procs 2).held := by
  have hrun : (runList (fun s x => act s x.1 x.2) [(1, .lock 0 16), (1, .lock 0 32),
      (1, .unlock 0), (2, .lock 0 16)] idle).map
      (fun s => ((s.procs 1).held, (s.procs 2).held)) = some ([0], [0]) := by decide
  obtain ⟨s, hs, h⟩ := Option.map_eq_some_iff.1 hrun
  simp only [Prod.mk.injEq] at h
  exact ⟨s, .of_list (fun _ _ _ h => h) (.start init_idle) hs, by simp [h.1], by simp [h.2]⟩

end Locking
