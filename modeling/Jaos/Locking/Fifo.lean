import Jaos.Locking.Exclusion
import Jaos.Locking.Proof.Lists

/-!
# Hand-over in the order of entry

A lock that every process uses flatly, as `readline` uses the lock of the keyboard: no process calls
`lock(id)` while it is inside a section of `id`. The other locks are used in any way. The run is
recorded as the `Event`s of the lock, and `fifo` reads off the record what the queue is: the processes that
have called `lock` and not yet `unlock`, in the order of entry. The calls of `lock` return in this order.
-/

namespace Locking

open Lib

/-! ## The record of a lock -/

/-- A call of `lock`, its return and a call of `unlock`. -/
inductive Event
  | entered (pid : Nat)
  | returned (pid : Nat)
  | left (pid : Nat)

/-- The processes that have entered and not left, in the order of entry. -/
def pending (t : List Event) : List Nat :=
  t.foldl (fun l e => match e with
    | .entered pid => l ++ [pid]
    | .returned _ => l
    | .left pid => l.erase pid) []

/-- The calls of `lock`. -/
def entries (t : List Event) : List Nat :=
  t.filterMap fun e => match e with
    | .entered pid => some pid
    | _ => none

/-- The returns of `lock`. -/
def returns (t : List Event) : List Nat :=
  t.filterMap fun e => match e with
    | .returned pid => some pid
    | _ => none

/-- What a step adds to the record of the lock `id`. -/
def events (id : Int) (s : Sys) (pid : Nat) : Act → List Event
  | .lock lockid lck =>
    if lockid = id then
      .entered pid :: if (lock pid lockid lck s.kernel).1 then [.returned pid] else []
    else []
  | .check => if (s.procs pid).pc = .check id ∧ headPid id s.kernel = pid then [.returned pid] else []
  | .block => []
  | .unlock lockid => if lockid = id then [.left pid] else []

/-- The process does not enter a section of `id` twice. -/
def Flat (id : Int) (s : Sys) (x : Nat × Act) : Prop :=
  ∀ lck, x.2 = .lock id lck → id ∉ (s.procs x.1).held

/-- A step together with the record of the lock. -/
def Recorded (id : Int) (c : Sys × List Event) (x : Nat × Act) (c' : Sys × List Event) : Prop :=
  Step c.1 x c'.1 ∧ Flat id c.1 x ∧ c'.2 = c.2 ++ events id c.1 x.1 x.2

/-- The list from head to tail, and who is past `lock`. -/
structure HandOver (id : Int) (s : Sys) (t : List Event) : Prop where
  queue : ∃ q, Chain (fun a => (s.kernel.record a).next) (s.kernel.locks id).head q ∧
    (∀ l a, q = l ++ [a] → (s.kernel.locks id).tail = a) ∧ pids s.kernel q = pending t
  once : (pending t).Nodup
  head : ∀ p, id ∈ (s.procs p).held → (pending t).head? = some p
  order : returns t <+: entries t

@[simp] theorem pending_append_entered (t : List Event) (pid : Nat) :
    pending (t ++ [.entered pid]) = pending t ++ [pid] := by simp [pending]

@[simp] theorem pending_append_returned (t : List Event) (pid : Nat) :
    pending (t ++ [.returned pid]) = pending t := by simp [pending]

@[simp] theorem pending_append_left (t : List Event) (pid : Nat) :
    pending (t ++ [.left pid]) = (pending t).erase pid := by simp [pending]

@[simp] theorem entries_append (t u : List Event) : entries (t ++ u) = entries t ++ entries u := by
  simp [entries]

@[simp] theorem returns_append (t u : List Event) : returns (t ++ u) = returns t ++ returns u := by
  simp [returns]

/-! ## The invariant -/

/-- Who has returned: the process at the head, if it is inside its section, and those that left. -/
def InOrder (id : Int) (procs : Nat → Proc) (t : List Event) : Prop :=
  ∃ gone, entries t = gone ++ pending t ∧
    ((∃ p l, pending t = p :: l ∧ id ∈ (procs p).held ∧ returns t = gone ++ [p]) ∨
      (∀ p, id ∉ (procs p).held) ∧ returns t = gone)

/-- The list is the pending part of the record, and the pending processes are those in the waiting loop
or in a section. -/
structure Ordered (id : Int) (s : Sys) (t : List Event) (queues : Int → List Nat) : Prop where
  lists : Lists s.kernel queues
  pids : pids s.kernel (queues id) = pending t
  once : (pending t).Nodup
  member : ∀ p, p ∈ pending t ↔ (s.procs p).Waits id ∨ id ∈ (s.procs p).held
  outside : ∀ p, (s.procs p).Waits id → id ∉ (s.procs p).held
  single : ∀ p, (s.procs p).held.count id ≤ 1
  head : ∀ p, id ∈ (s.procs p).held → (pending t).head? = some p
  order : InOrder id s.procs t

section
variable {id : Int} {s : Sys} {t : List Event} {queues queues' : Int → List Nat} {pid lck : Nat}
  {k' : Kernel} {p' : Proc}

theorem InOrder.prefix (h : InOrder id s.procs t) : returns t <+: entries t := by
  obtain ⟨gone, he, ⟨p, l, hp, -, hr⟩ | ⟨-, hr⟩⟩ := h
  · exact ⟨l, by rw [hr, he, hp, List.append_assoc, List.singleton_append]⟩
  · exact ⟨pending t, by rw [hr, he]⟩

theorem Ordered.handOver (h : Ordered id s t queues) (hid : id ≠ -1) : HandOver id s t :=
  ⟨⟨queues id, (h.lists.listed id hid).chain, (h.lists.listed id hid).tail, h.pids⟩, h.once, h.head,
    h.order.prefix⟩

/-- A section of another lock, or a step that changes no list. -/
theorem Ordered.other (h : Ordered id s t queues) (hl : Lists k' queues')
    (hq : queues' id = queues id)
    (hrec : ∀ a ∈ queues id, (k'.record a).pid = (s.kernel.record a).pid)
    (hwaits : p'.Waits id ↔ (s.procs pid).Waits id)
    (hheld : p'.held.count id = (s.procs pid).held.count id) :
    Ordered id ⟨k', upd s.procs pid p'⟩ t queues' := by
  have hw : ∀ p, (upd s.procs pid p' p).Waits id ↔ (s.procs p).Waits id := by
    intro p
    by_cases hp : p = pid
    · rw [hp, upd_same]
      exact hwaits
    · rw [upd_ne _ _ hp]
  have hc : ∀ p, (upd s.procs pid p' p).held.count id = (s.procs p).held.count id := by
    intro p
    by_cases hp : p = pid
    · rw [hp, upd_same]
      exact hheld
    · rw [upd_ne _ _ hp]
  have hm : ∀ p, id ∈ (upd s.procs pid p' p).held ↔ id ∈ (s.procs p).held := by
    intro p
    rw [← List.count_pos_iff, ← List.count_pos_iff, hc]
  refine ⟨hl, ?_, h.once, ?_, ?_, ?_, ?_, ?_⟩
  · rw [hq, ← h.pids]
    exact List.map_congr_left fun a ha => hrec a ha
  · intro p
    rw [hw, hm]
    exact h.member p
  · intro p hp
    rw [hm]
    exact h.outside p ((hw p).1 hp)
  · intro p
    rw [hc]
    exact h.single p
  · exact fun p hp => h.head p ((hm p).1 hp)
  · obtain ⟨gone, he, ⟨p, l, hp, hin, hr⟩ | ⟨hno, hr⟩⟩ := h.order
    · exact ⟨gone, he, .inl ⟨p, l, hp, (hm p).2 hin, hr⟩⟩
    · exact ⟨gone, he, .inr ⟨fun p => by rw [hm]; exact hno p, hr⟩⟩

/-- Nobody is inside a section while the head of the list is not. -/
theorem Ordered.nobody (h : Ordered id s t queues) {p : Nat} (hp : (pending t).head? = some p)
    (hout : id ∉ (s.procs p).held) : ∀ q, id ∉ (s.procs q).held := by
  intro q hq
  have := h.head q hq
  rw [hp] at this
  exact hout (Option.some.inj this ▸ hq)

/-- The process at the head of the list, outside its section so far, returns from `lock`. -/
theorem Ordered.enter (h : Ordered id s t queues) (hhead : (pending t).head? = some pid)
    (hout : id ∉ (s.procs pid).held) :
    Ordered id ⟨s.kernel, upd s.procs pid ((s.procs pid).enter id)⟩ (t ++ [.returned pid]) queues := by
  have hno := h.nobody hhead hout
  have hheld : ∀ p, id ∈ (upd s.procs pid ((s.procs pid).enter id) p).held ↔ p = pid := by
    intro p
    by_cases hp : p = pid
    · rw [hp, upd_same]
      simp [Proc.enter]
    · rw [upd_ne _ _ hp]
      simp [hp, hno p]
  have hwaits : ∀ p, p ≠ pid → ((upd s.procs pid ((s.procs pid).enter id) p).Waits id ↔
      (s.procs p).Waits id) := fun p hp => by rw [upd_ne _ _ hp]
  have hself : ¬ (upd s.procs pid ((s.procs pid).enter id) pid).Waits id := by
    rw [upd_same]
    exact Proc.not_waits rfl
  have hpend : pending (t ++ [.returned pid]) = pending t := pending_append_returned t pid
  obtain ⟨l, hl⟩ : ∃ l, pending t = pid :: l := by
    cases hpt : pending t with
    | nil => simp [hpt] at hhead
    | cons b l => exact ⟨l, by simpa [hpt] using hhead⟩
  refine ⟨h.lists, ?_, ?_, ?_, ?_, ?_, ?_, ?_⟩
  · rw [hpend]
    exact h.pids
  · rw [hpend]
    exact h.once
  · intro p
    rw [hpend, hheld]
    by_cases hp : p = pid
    · simp [hp, hl]
    · rw [hwaits p hp, h.member p]
      simp [hp, hno p]
  · intro p hp hin
    obtain rfl := (hheld p).1 hin
    exact hself hp
  · intro p
    dsimp only
    by_cases hp : p = pid
    · rw [hp, upd_same]
      simp [Proc.enter, List.count_eq_zero_of_not_mem hout]
    · rw [upd_ne _ _ hp]
      exact h.single p
  · intro p hp
    rw [hpend, (hheld p).1 hp]
    exact hhead
  · obtain ⟨gone, he, hr⟩ := h.order
    have hgone : returns t = gone := by
      rcases hr with ⟨p, l, -, hin, -⟩ | ⟨-, hr⟩
      · exact absurd hin (hno p)
      · exact hr
    refine ⟨gone, ?_, .inl ⟨pid, l, ?_, (hheld pid).2 rfl, ?_⟩⟩
    · rw [hpend, entries_append, he]
      simp [entries]
    · rw [hpend, hl]
    · rw [returns_append, hgone]
      simp [returns]

/-- A process enters `lock` and is at the end of the list. -/
theorem Ordered.wait (h : Ordered id s t queues) (hid : id ≠ -1)
    (happ : Appended s.kernel queues id pid lck k') (hrun : (s.procs pid).pc = .run)
    (hout : id ∉ (s.procs pid).held) :
    Ordered id ⟨k', upd s.procs pid { s.procs pid with pc := .check id }⟩ (t ++ [.entered pid])
      (upd queues id (queues id ++ [lck])) := by
  have hnew : pid ∉ pending t := fun hp => by
    rcases (h.member pid).1 hp with hw | hin
    · exact Proc.not_waits hrun hw
    · exact hout hin
  have hheld : ∀ p, (upd s.procs pid { s.procs pid with pc := .check id } p).held =
      (s.procs p).held := by
    intro p
    by_cases hp : p = pid
    · rw [hp, upd_same]
    · rw [upd_ne _ _ hp]
  have hwaits : ∀ p, (upd s.procs pid { s.procs pid with pc := .check id } p).Waits id ↔
      p = pid ∨ (s.procs p).Waits id := by
    intro p
    by_cases hp : p = pid
    · rw [hp, upd_same]
      simp [Proc.Waits]
    · rw [upd_ne _ _ hp]
      simp [hp]
  have hpend := pending_append_entered t pid
  refine ⟨happ.lists, ?_, ?_, ?_, ?_, ?_, ?_, ?_⟩
  · rw [hpend, upd_same, Locking.pids, List.map_append, ← h.pids]
    congr 1
    · exact List.map_congr_left fun a ha => happ.old a ((h.lists.listed id hid).live a ha)
    · rw [List.map_singleton, happ.new]
  · rw [hpend, List.nodup_append]
    refine ⟨h.once, by simp, fun a ha b hb => ?_⟩
    rw [List.mem_singleton.1 hb]
    exact fun he => hnew (he ▸ ha)
  · intro p
    rw [hpend, List.mem_append, h.member p, hwaits, hheld, List.mem_singleton]
    rw [or_comm, or_assoc]
  · intro p hp
    rw [hheld]
    rcases (hwaits p).1 hp with rfl | hw
    · exact hout
    · exact h.outside p hw
  · intro p
    rw [hheld]
    exact h.single p
  · intro p hp
    rw [hheld] at hp
    rw [hpend, List.head?_append, h.head p hp]
    rfl
  · obtain ⟨gone, he, hr⟩ := h.order
    refine ⟨gone, ?_, ?_⟩
    · rw [hpend, entries_append, he, List.append_assoc]
      rfl
    · have hret : returns (t ++ [.entered pid]) = returns t := by simp [returns]
      rw [hret, hpend]
      rcases hr with ⟨p, l, hp, hin, hr⟩ | ⟨hno, hr⟩
      · exact .inl ⟨p, l ++ [pid], by rw [hp]; rfl, by rwa [hheld], hr⟩
      · exact .inr ⟨fun p => by rw [hheld]; exact hno p, hr⟩

/-- The process at the head leaves. -/
theorem Ordered.leave {l : List Nat} {a : Nat} (h : Ordered id s t queues)
    (hq : queues id = a :: l) (hl : Lists k' (upd queues id l)) (hrec : k'.record = s.kernel.record)
    (hheld : (s.procs pid).held.head? = some id) :
    Ordered id ⟨k', upd s.procs pid ((s.procs pid).leave id)⟩ (t ++ [.left pid]) (upd queues id l) := by
  have hin := List.mem_of_head? hheld
  -- the process is the first of the pending ones, and it is out of its only section
  have hpids : pending t = pid :: Locking.pids s.kernel l := by
    have h1 := h.pids
    have h2 := h.head pid hin
    rw [hq, Locking.pids, List.map_cons] at h1
    rw [← h1, List.head?_cons] at h2
    rw [← h1, Option.some.inj h2]
    rfl
  have hpend : pending (t ++ [.left pid]) = Locking.pids s.kernel l := by
    rw [pending_append_left, hpids, List.erase_cons_head]
  have hnd := List.nodup_cons.1 (hpids ▸ h.once)
  obtain ⟨rest, hrest⟩ : ∃ rest, (s.procs pid).held = id :: rest := by
    cases hh : (s.procs pid).held with
    | nil => simp [hh] at hheld
    | cons b rest => exact ⟨rest, by simpa [hh] using hheld⟩
  have hgone : id ∉ rest := by
    have := h.single pid
    rw [hrest, List.count_cons_self] at this
    exact fun hmem => by have := List.count_pos_iff.2 hmem; omega
  have hno : ∀ p, id ∉ (upd s.procs pid ((s.procs pid).leave id) p).held := by
    intro p
    by_cases hp : p = pid
    · rw [hp, upd_same]
      simpa [Proc.leave, hrest] using hgone
    · rw [upd_ne _ _ hp]
      intro hin'
      have := h.head p hin'
      rw [hpids, List.head?_cons] at this
      exact hp (Option.some.inj this).symm
  have hwaits : ∀ p, (upd s.procs pid ((s.procs pid).leave id) p).Waits id ↔ (s.procs p).Waits id := by
    intro p
    by_cases hp : p = pid
    · rw [hp, upd_same]
      rfl
    · rw [upd_ne _ _ hp]
  refine ⟨hl, ?_, ?_, ?_, ?_, ?_, ?_, ?_⟩
  · rw [hpend, upd_same, Locking.pids, Locking.pids, hrec]
  · rw [hpend]
    exact hnd.2
  · intro p
    rw [hpend, hwaits]
    have hm := h.member p
    rw [hpids, List.mem_cons] at hm
    constructor
    · intro hp
      rcases hm.1 (.inr hp) with hw | hin'
      · exact .inl hw
      · have := h.head p hin'
        rw [hpids, List.head?_cons] at this
        exact absurd (Option.some.inj this ▸ hp) hnd.1
    · rintro (hw | hin')
      · rcases hm.2 (.inl hw) with rfl | hp
        · exact absurd hin (h.outside _ hw)
        · exact hp
      · exact absurd hin' (hno p)
  · exact fun p _ => hno p
  · intro p
    rw [List.count_eq_zero_of_not_mem (hno p)]
    exact Nat.zero_le 1
  · exact fun p hp => absurd hp (hno p)
  · obtain ⟨gone, he, hr⟩ := h.order
    have hret : returns t = gone ++ [pid] := by
      rcases hr with ⟨p, m, hp, -, hr⟩ | ⟨hno, -⟩
      · rw [hpids] at hp
        cases hp
        exact hr
      · exact absurd hin (hno pid)
    refine ⟨gone ++ [pid], ?_, .inr ⟨hno, ?_⟩⟩
    · rw [hpend, entries_append, he, hpids]
      simp [entries]
    · rw [returns_append, hret]
      simp [returns]

theorem Ordered.init (h : Init s) : Ordered id s [] fun _ => [] := by
  obtain ⟨hlocks, hprocs⟩ := h
  have hw : ∀ p, ¬ (s.procs p).Waits id := fun p => Proc.not_waits (hprocs p).1
  have hh : ∀ p, id ∉ (s.procs p).held := fun p => by simp [(hprocs p).2.1]
  refine ⟨.init hlocks, rfl, List.nodup_nil, fun p => ?_, fun p _ => hh p, fun p => ?_,
    fun p hp => absurd hp (hh p), ⟨[], rfl, .inr ⟨hh, rfl⟩⟩⟩
  · simp [pending, hw p, hh p]
  · rw [List.count_eq_zero_of_not_mem (hh p)]
    exact Nat.zero_le 1

/-! ## The steps -/

theorem Ordered.lock {lockid : Int} (h : Ordered id s t queues) (hid : id ≠ -1)
    (hrun : (s.procs pid).pc = .run) (hlck : lck ≠ 0) (hfresh : lck ∉ s.kernel.live)
    (hflat : lockid = id → id ∉ (s.procs pid).held) :
    ∃ queues', Ordered id ⟨(lock pid lockid lck s.kernel).2, upd s.procs pid
      (if (lock pid lockid lck s.kernel).1 then (s.procs pid).enter lockid
      else { s.procs pid with pc := .check lockid })⟩ (t ++ events id s pid (.lock lockid lck))
      queues' := by
  have hcases := h.lists.lock_cases pid lockid hlck hfresh
  unfold events
  dsimp only
  by_cases he : lockid = id
  · subst he
    rw [if_pos rfl]
    have hout := hflat rfl
    rcases hcases with ⟨-, hid' | ⟨hne, hhead⟩⟩ | ⟨-, happ, hret⟩
    · exact absurd hid' hid
    · -- the process would be in the queue
      exfalso
      obtain ⟨a, l, hal⟩ := List.exists_cons_of_ne_nil hne
      have hl := h.lists.listed lockid hid
      rw [hal] at hl
      have hmem : pid ∈ pending t := by
        rw [← h.pids, hal, Locking.pids, List.map_cons, ← hl.head.2, hhead]
        exact List.mem_cons_self
      rcases (h.member pid).1 hmem with hw | hin
      · exact Proc.not_waits hrun hw
      · exact hout hin
    · refine ⟨upd queues lockid (queues lockid ++ [lck]), ?_⟩
      have hwait := h.wait hid happ hrun hout
      rcases hret with ⟨hq, hr⟩ | ⟨-, -, hr⟩
      · -- the lock was free: the process enters and returns at once
        rw [hr, if_pos rfl, if_pos rfl]
        have henter := @Ordered.enter _ _ _ _ pid hwait (by
          rw [pending_append_entered, ← h.pids, hq]
          rfl) (by simpa using hout)
        have hproc : upd (upd s.procs pid { s.procs pid with pc := .check lockid }) pid
            ((upd s.procs pid { s.procs pid with pc := .check lockid } pid).enter lockid) =
            upd s.procs pid ((s.procs pid).enter lockid) := by
          funext p
          by_cases hp : p = pid
          · rw [hp, upd_same, upd_same, upd_same]
            rfl
          · rw [upd_ne _ _ hp, upd_ne _ _ hp, upd_ne _ _ hp]
        rw [List.append_assoc, hproc] at henter
        exact henter
      · rw [hr]
        exact hwait
  · rw [if_neg he, List.append_nil]
    have hp' : ∀ b : Bool,
        ((if b then (s.procs pid).enter lockid else { s.procs pid with pc := .check lockid }).Waits id ↔
          (s.procs pid).Waits id) ∧
        (if b then (s.procs pid).enter lockid else { s.procs pid with pc := .check lockid }).held.count
          id = (s.procs pid).held.count id := by
      intro b
      cases b
      · exact ⟨by simp [Proc.Waits, hrun, he], rfl⟩
      · exact ⟨by simp [Proc.Waits, Proc.enter, hrun], by simp [Proc.enter, he]⟩
    rcases hcases with ⟨hsame, -⟩ | ⟨-, happ, -⟩
    · rw [hsame]
      exact ⟨queues, h.other h.lists rfl (fun _ _ => rfl) (hp' true).1 (hp' true).2⟩
    · refine ⟨_, h.other happ.lists (upd_ne _ _ (Ne.symm he)) (fun a ha => ?_) (hp' _).1 (hp' _).2⟩
      exact happ.old a ((h.lists.listed id hid).live a ha)

theorem Ordered.unlock {lockid : Int} (h : Ordered id s t queues) (hid : id ≠ -1)
    (hheld : (s.procs pid).held.head? = some lockid) :
    ∃ queues', Ordered id ⟨unlock pid lockid s.kernel, upd s.procs pid ((s.procs pid).leave lockid)⟩
      (t ++ events id s pid (.unlock lockid)) queues' := by
  obtain ⟨hrec, -, hcases⟩ := h.lists.unlock_cases pid lockid
  -- the wake-up changes a status only
  have hwake : ∀ queues', Lists (unlockHead pid lockid s.kernel).2 queues' →
      Lists (Locking.unlock pid lockid s.kernel) queues' := by
    intro queues' hl
    rw [unlock_eq]
    split
    · exact hl.status _
    · exact hl
  have hrec' : (Locking.unlock pid lockid s.kernel).record = s.kernel.record := by
    rw [unlock_eq]
    split
    · exact hrec
    · exact hrec
  unfold events
  dsimp only
  by_cases he : lockid = id
  · subst he
    rw [if_pos rfl]
    have hhead := h.head pid (List.mem_of_head? hheld)
    rcases hcases with ⟨hid' | hq, -⟩ | ⟨-, a, l, hq, ⟨hl, -, hlists⟩ | ⟨-, -, -, hlists⟩ | ⟨-, hne, -⟩⟩
    · exact absurd hid' hid
    · rw [← h.pids, hq] at hhead
      cases hhead
    · exact ⟨_, h.leave hq (hl ▸ hwake _ hlists) hrec' hheld⟩
    · exact ⟨_, h.leave hq (hwake _ hlists) hrec' hheld⟩
    · have hl := h.lists.listed lockid hid
      rw [hq] at hl
      rw [← h.pids, hq, Locking.pids, List.map_cons, List.head?_cons, ← hl.head.2] at hhead
      exact absurd (Option.some.inj hhead) hne
  · rw [if_neg he, List.append_nil]
    have hcount : ((s.procs pid).leave lockid).held.count id = (s.procs pid).held.count id := by
      cases hh : (s.procs pid).held with
      | nil => simp [Proc.leave, hh]
      | cons b rest =>
        rw [hh, List.head?_cons] at hheld
        simp [Proc.leave, hh, Option.some.inj hheld, he]
    have hother : ∀ queues', Lists (unlockHead pid lockid s.kernel).2 queues' →
        queues' id = queues id →
        Ordered id ⟨Locking.unlock pid lockid s.kernel, upd s.procs pid ((s.procs pid).leave lockid)⟩
          t queues' := fun queues' hl hq =>
      h.other (hwake _ hl) hq (fun a _ => by rw [hrec']) Iff.rfl hcount
    rcases hcases with ⟨-, hsame⟩ | ⟨-, a, l, -, ⟨-, -, hl⟩ | ⟨-, -, -, hl⟩ | ⟨-, -, hsame⟩⟩
    · exact ⟨queues, hother _ (by rw [hsame]; exact h.lists) rfl⟩
    · exact ⟨_, hother _ hl (upd_ne _ _ (Ne.symm he))⟩
    · exact ⟨_, hother _ hl (upd_ne _ _ (Ne.symm he))⟩
    · exact ⟨queues, hother _ (by rw [hsame]; exact h.lists) rfl⟩

/-- **Every flat step keeps the queue in the order of entry.** -/
theorem Ordered.step {x : Nat × Act} {s' : Sys} (h : Ordered id s t queues) (hid : id ≠ -1)
    (hstep : Step s x s') (hflat : Flat id s x) :
    ∃ queues', Ordered id s' (t ++ events id s x.1 x.2) queues' := by
  obtain ⟨pid, a⟩ := x
  unfold Step act at hstep
  cases a with
  | lock lockid lck =>
    dsimp only at hstep
    split at hstep
    · rename_i hc
      cases hstep
      exact h.lock hid hc.1 hc.2.1 hc.2.2 fun he => hflat lck (by rw [he])
    · cases hstep
  | check =>
    dsimp only at hstep
    split at hstep
    · rename_i lockid hpc
      cases hstep
      refine ⟨queues, ?_⟩
      unfold events
      dsimp only
      rw [hpc]
      by_cases he : lockid = id
      · subst he
        have hw : (s.procs pid).Waits lockid := .inl hpc
        split
        · -- the process is in the queue, so it is the head
          rename_i hhead
          rw [if_pos ⟨rfl, hhead⟩]
          have hmem := (h.member pid).2 (.inl hw)
          refine h.enter ?_ (h.outside pid hw)
          rw [← h.pids] at hmem ⊢
          cases hq : queues lockid with
          | nil => simp [hq, Locking.pids] at hmem
          | cons b l =>
            have hl := h.lists.listed lockid hid
            rw [hq] at hl
            rw [Locking.pids, List.map_cons, List.head?_cons, ← hl.head.2, hhead]
        · rename_i hhead
          rw [if_neg fun hc => hhead hc.2, List.append_nil]
          exact h.other h.lists rfl (fun _ _ => rfl) (by simp [Proc.Waits, hpc]) rfl
      · have hno : ¬ (Pc.check lockid = .check id ∧ headPid id s.kernel = pid) := fun hc =>
          he (Pc.check.inj hc.1)
        rw [if_neg hno, List.append_nil]
        refine h.other h.lists rfl (fun _ _ => rfl) ?_ ?_
        · split <;> simp [Proc.Waits, Proc.enter, hpc, he]
        · split <;> simp [Proc.enter, he]
    · cases hstep
  | block =>
    dsimp only at hstep
    split at hstep
    · rename_i lockid hpc
      cases hstep
      refine ⟨queues, ?_⟩
      unfold events
      rw [List.append_nil]
      exact h.other (h.lists.status _) rfl (fun _ _ => rfl) (by simp [Proc.Waits, hpc]) rfl
    · cases hstep
  | unlock lockid =>
    dsimp only at hstep
    split at hstep
    · rename_i hc
      cases hstep
      exact h.unlock hid hc.2
    · cases hstep

/-- **First in, first out**, in every run that uses the lock flatly. -/
theorem fifo (hid : id ≠ -1) (h : Reach (fun c => Init c.1 ∧ c.2 = []) (Recorded id) (s, t)) :
    HandOver id s t := by
  have hinv := h.invariant (P := fun c => ∃ queues, Ordered id c.1 c.2 queues)
    (fun c hc => ⟨fun _ => [], by rw [hc.2]; exact .init hc.1⟩) fun c x c' hc hs => by
      obtain ⟨queues, hc⟩ := hc
      rw [hs.2.2]
      exact hc.step hid hs.1 hs.2.1
  obtain ⟨queues, hord⟩ := hinv
  exact hord.handOver hid

end

/-- The test for `Flat`. -/
def flat (id : Int) (s : Sys) : Nat × Act → Bool
  | (pid, .lock lockid _) => decide (lockid = id → id ∉ (s.procs pid).held)
  | _ => true

/-- A step that passes the test, with the record of the lock. -/
def recorded (id : Int) (c : Sys × List Event) (x : Nat × Act) : Option (Sys × List Event) :=
  if flat id c.1 x then (act c.1 x.1 x.2).map fun s => (s, c.2 ++ events id c.1 x.1 x.2) else none

theorem recorded_step {id : Int} {c c' : Sys × List Event} {x : Nat × Act}
    (h : recorded id c x = some c') : Recorded id c x c' := by
  unfold recorded at h
  split at h
  · rename_i hflat
    obtain ⟨s', hs', rfl⟩ := Option.map_eq_some_iff.1 h
    refine ⟨hs', fun lck hx => ?_, rfl⟩
    obtain ⟨pid, a⟩ := x
    dsimp only at hx
    subst hx
    exact of_decide_eq_true hflat rfl
  · cases h

/-- Three processes: 2 and 3 wait in this order, and 2 has got the lock. -/
theorem fifo_run : ∃ s t, runList (recorded 0) [(1, .lock 0 16), (2, .lock 0 32), (3, .lock 0 48),
      (3, .check), (1, .unlock 0), (2, .check)] (idle, []) = some (s, t) ∧
    pending t = [2, 3] ∧ HandOver 0 s t := by
  have hrun : (runList (recorded 0) [(1, .lock 0 16), (2, .lock 0 32), (3, .lock 0 48),
      (3, .check), (1, .unlock 0), (2, .check)] (idle, [])).map (fun c => pending c.2) =
      some [2, 3] := by decide
  obtain ⟨⟨s, t⟩, hs, hp⟩ := Option.map_eq_some_iff.1 hrun
  exact ⟨s, t, hs, hp, fifo (by decide)
    (.of_list (fun _ _ _ => recorded_step) (.start ⟨init_idle, rfl⟩) hs)⟩

end Locking
