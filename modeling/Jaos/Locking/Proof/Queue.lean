import Jaos.Locking.BLocking

/-!
# The queue of a lock

`Queue s id q`: the records at the addresses `q` form the queue of `id`, their processes are
different, an owner is at the head, and every other process in the queue is in the waiting loop, as
every process in the loop is in the queue. An `unlock` by a process that is not at the head of a
queue of one record removes the record of another process (`Foreign`); all other steps keep `Queue`
for all locks at once (`Inv.step`).
-/

namespace Locking

open Lib

/-- The process is in the waiting loop of `lockid`. -/
def Proc.Waits (p : Proc) (lockid : Int) : Prop := p.pc = .check lockid ∨ p.pc = .block lockid

/-- The records at `q` form the queue of `lockid` (module doc). -/
structure Queue (s : Sys) (lockid : Int) (q : List Nat) : Prop where
  chain : Chain (fun a => (s.kernel.record a).next) (s.kernel.locks lockid).head q
  tail : ∀ l t, q = l ++ [t] → (s.kernel.locks lockid).tail = t
  live : ∀ a ∈ q, a ∈ s.kernel.live
  nodup : (q.map fun a => (s.kernel.record a).pid).Nodup
  owner : ∀ p, (s.procs p).owns lockid = true → ∃ a l, q = a :: l ∧ (s.kernel.record a).pid = p
  member : ∀ a l, q = a :: l →
    ((s.procs (s.kernel.record a).pid).owns lockid = true ∨
      (s.procs (s.kernel.record a).pid).Waits lockid) ∧
    ∀ b ∈ l, (s.procs (s.kernel.record b).pid).Waits lockid
  waiter : ∀ p, (s.procs p).Waits lockid → ∃ a ∈ q, (s.kernel.record a).pid = p

/-- Every lock has its queue, and no record is in two. -/
def Inv (s : Sys) : Prop :=
  ∃ queues : Int → List Nat, (∀ id, id ≠ -1 → Queue s id (queues id)) ∧
    ∀ id id' a, id ≠ -1 → id' ≠ -1 → a ∈ queues id → a ∈ queues id' → id = id'

/-- `unlock` by a process that is not at the head of a queue of one record. -/
def Foreign (s : Sys) (pid : Nat) (lockid : Int) : Prop :=
  lockid ≠ -1 ∧ (s.kernel.locks lockid).head ≠ 0 ∧
    (s.kernel.locks lockid).head = (s.kernel.locks lockid).tail ∧ headPid lockid s.kernel ≠ pid

section
variable {s s' : Sys} {id : Int} {q l : List Nat} {a pid : Nat}

/-! ## Reading the queue -/

theorem Queue.empty_iff (h : Queue s id q) : (s.kernel.locks id).head = 0 ↔ q = [] :=
  h.chain.head_eq_zero

theorem Queue.head (h : Queue s id (a :: l)) :
    (s.kernel.locks id).head = a ∧ headPid id s.kernel = (s.kernel.record a).pid := by
  have := h.chain.1
  exact ⟨this, by rw [headPid, this]⟩

theorem Queue.nodup_addr (h : Queue s id q) : q.Nodup :=
  (List.pairwise_map.1 h.nodup).imp fun hne he => hne (by rw [he])

/-- The records behind the head belong to other processes. -/
theorem Queue.rest_ne (h : Queue s id (a :: l)) {b : Nat} (hb : b ∈ l) :
    (s.kernel.record b).pid ≠ (s.kernel.record a).pid := fun he =>
  (List.nodup_cons.1 h.nodup).1 (List.mem_map.2 ⟨b, hb, he⟩)

/-- The test for a single record. -/
theorem Queue.single_iff (h : Queue s id (a :: l)) :
    a = (s.kernel.locks id).tail ↔ l = [] := by
  rcases List.eq_nil_or_concat l with rfl | ⟨m, t, rfl⟩
  · simpa using (h.tail [] a rfl).symm
  · have ht := h.tail (a :: m) t (by simp)
    have hnd := h.nodup_addr
    rw [ht]
    simp only [List.concat_eq_append, List.append_eq_nil_iff, List.cons_ne_self, and_false,
      iff_false]
    rintro rfl
    simp at hnd

/-- A process outside the loop has its record at the head, as the owner. -/
theorem Queue.run (h : Queue s id q) (ha : a ∈ q) (hrun : ¬ (s.procs (s.kernel.record a).pid).Waits id) :
    ∃ l, q = a :: l ∧ (s.procs (s.kernel.record a).pid).owns id = true := by
  cases q with
  | nil => cases ha
  | cons b l =>
    obtain ⟨hb, hl⟩ := h.member b l rfl
    rcases List.mem_cons.1 ha with rfl | ha
    · exact ⟨l, rfl, hb.resolve_right hrun⟩
    · exact absurd (hl a ha) hrun

/-- A queue that a step does not touch. -/
theorem Queue.kept (h : Queue s id q) (hlocks : s'.kernel.locks id = s.kernel.locks id)
    (hrec : ∀ a ∈ q, s'.kernel.record a = s.kernel.record a)
    (hlive : ∀ a ∈ q, a ∈ s.kernel.live → a ∈ s'.kernel.live)
    (howns : ∀ p, (s'.procs p).owns id = (s.procs p).owns id)
    (hwaits : ∀ p, (s'.procs p).Waits id ↔ (s.procs p).Waits id) : Queue s' id q := by
  constructor
  · rw [hlocks]
    exact h.chain.congr fun x hx => by rw [hrec x hx]
  · rw [hlocks]
    exact h.tail
  · exact fun a ha => hlive a ha (h.live a ha)
  · rw [List.map_congr_left fun a ha => by rw [hrec a ha]]
    exact h.nodup
  · intro p hp
    obtain ⟨a, l, rfl, hpid⟩ := h.owner p (by rwa [← howns])
    exact ⟨a, l, rfl, by rwa [hrec a List.mem_cons_self]⟩
  · rintro a l rfl
    obtain ⟨h1, h2⟩ := h.member a l rfl
    refine ⟨?_, fun b hb => ?_⟩
    · rw [hrec a List.mem_cons_self, howns, hwaits]
      exact h1
    · rw [hrec b (List.mem_cons_of_mem _ hb), hwaits]
      exact h2 b hb
  · intro p hp
    obtain ⟨a, ha, hpid⟩ := h.waiter p ((hwaits p).1 hp)
    exact ⟨a, ha, by rwa [hrec a ha]⟩

/-! ## The processes -/

/-- The process changed nothing but its part in `id`. -/
def Proc.Local (id : Int) (p p' : Proc) : Prop :=
  ∀ id', id' ≠ id → p'.owns id' = p.owns id' ∧ (p'.Waits id' ↔ p.Waits id')

theorem Proc.local_enter {p : Proc} (hpc : p.pc = .run ∨ p.pc = .check id) :
    p.Local id (p.enter id) := by
  intro id' hne
  refine ⟨upd_ne _ _ hne, ?_⟩
  unfold Proc.Waits Proc.enter
  rcases hpc with h | h <;> simp [h, Ne.symm hne]

theorem Proc.local_wait {p : Proc} (hpc : p.pc = .run) : p.Local id { p with pc := .check id } := by
  intro id' hne
  refine ⟨rfl, ?_⟩
  unfold Proc.Waits
  simp [hpc, Ne.symm hne]

theorem Proc.local_leave {p : Proc} : p.Local id (p.leave id) := fun _ hne => ⟨upd_ne _ _ hne, Iff.rfl⟩

theorem Proc.not_waits {p : Proc} (hpc : p.pc = .run) : ¬ p.Waits id := by
  unfold Proc.Waits
  simp [hpc]

/-- The queues of the other locks, when one process changes its part in `id`. -/
theorem Queue.other {id' : Int} (h : Queue s id' q) (hne : id' ≠ id) {k : Kernel} {p' : Proc}
    (hp : (s.procs pid).Local id p') (hlocks : k.locks id' = s.kernel.locks id')
    (hrec : ∀ a ∈ q, k.record a = s.kernel.record a)
    (hlive : ∀ a ∈ q, a ∈ s.kernel.live → a ∈ k.live) : Queue ⟨k, upd s.procs pid p'⟩ id' q := by
  refine h.kept hlocks hrec hlive (fun p => ?_) fun p => ?_ <;> dsimp only
  · by_cases hpp : p = pid
    · subst hpp
      rw [upd_same]
      exact (hp id' hne).1
    · rw [upd_ne _ _ hpp]
  · by_cases hpp : p = pid
    · subst hpp
      rw [upd_same]
      exact (hp id' hne).2
    · rw [upd_ne _ _ hpp]

/-- A process moves inside the waiting loop. -/
theorem Queue.move (h : Queue s id q) {k : Kernel} {p' : Proc}
    (howns : p'.owns = (s.procs pid).owns)
    (hwaits : ∀ id, p'.Waits id ↔ (s.procs pid).Waits id) (hrec : k.record = s.kernel.record)
    (hlocks : k.locks = s.kernel.locks) (hlive : k.live = s.kernel.live) :
    Queue ⟨k, upd s.procs pid p'⟩ id q := by
  refine h.kept (by rw [hlocks]) (fun a _ => by rw [hrec]) (fun a _ ha => by rwa [hlive])
    (fun p => ?_) fun p => ?_ <;> dsimp only
  · by_cases hpp : p = pid
    · rw [hpp, upd_same, howns]
    · rw [upd_ne _ _ hpp]
  · by_cases hpp : p = pid
    · rw [hpp, upd_same]
      exact hwaits id
    · rw [upd_ne _ _ hpp]

/-! ## One operation at a time -/

section
variable (h : Queue s id q)
include h

/-- `lock` returns to a process at the head, be it again or after waiting. -/
theorem Queue.enter (hq : q ≠ []) (hhead : headPid id s.kernel = pid) :
    Queue ⟨s.kernel, upd s.procs pid ((s.procs pid).enter id)⟩ id q := by
  obtain ⟨a, l, rfl⟩ := List.exists_cons_of_ne_nil hq
  rw [h.head.2] at hhead
  constructor
  · exact h.chain
  · exact h.tail
  · exact h.live
  · exact h.nodup
  · intro p hp
    by_cases hpp : p = pid
    · exact ⟨a, l, rfl, by rw [hhead, hpp]⟩
    · dsimp only at hp
      rw [upd_ne _ _ hpp] at hp
      exact h.owner p hp
  · rintro a' l' heq
    cases heq
    dsimp only
    refine ⟨.inl ?_, fun b hb => ?_⟩
    · rw [hhead, upd_same]
      exact upd_same _ _ _
    · have hne := h.rest_ne hb
      rw [hhead] at hne
      rw [upd_ne _ _ hne]
      exact (h.member a l rfl).2 b hb
  · intro p hp
    by_cases hpp : p = pid
    · subst hpp
      dsimp only at hp
      rw [upd_same] at hp
      exact absurd hp (Proc.not_waits rfl)
    · dsimp only at hp
      rw [upd_ne _ _ hpp] at hp
      exact h.waiter p hp

/-- `lock` on a free lock. -/
theorem Queue.acquire (pid : Nat) (hq : q = []) (ha : a ≠ 0) :
    Queue ⟨setQueue id ⟨a, a⟩ (newLock pid a s.kernel), upd s.procs pid ((s.procs pid).enter id)⟩
      id [a] := by
  subst hq
  have hpid : (upd s.kernel.record a ⟨pid, 0⟩ a).pid = pid := by rw [upd_same]
  constructor
  · simp [setQueue, newLock, ha]
  · intro l t heq
    obtain ⟨rfl, rfl⟩ : l = [] ∧ a = t := by
      cases l with
      | nil => simpa using heq
      | cons b l => simp at heq
    simp [setQueue]
  · simp [setQueue, newLock]
  · simp
  · intro p hp
    by_cases hpp : p = pid
    · exact ⟨a, [], rfl, by rw [hpp]; exact hpid⟩
    · dsimp only at hp
      rw [upd_ne _ _ hpp] at hp
      obtain ⟨b, l, heq, -⟩ := h.owner p hp
      cases heq
  · rintro b l heq
    cases heq
    dsimp only [setQueue, newLock]
    rw [hpid, upd_same]
    exact ⟨.inl (upd_same _ _ _), by simp⟩
  · intro p hp
    by_cases hpp : p = pid
    · exact ⟨a, by simp, by rw [hpp]; exact hpid⟩
    · dsimp only at hp
      rw [upd_ne _ _ hpp] at hp
      obtain ⟨b, hb, -⟩ := h.waiter p hp
      cases hb

/-- `lock` on a lock that another process owns: the record goes to the end of the queue. -/
theorem Queue.append {m : List Nat} {t : Nat} (hq : q = m ++ [t]) (ha : a ≠ 0)
    (hfresh : a ∉ s.kernel.live) (hrun : (s.procs pid).pc = .run)
    (hhead : headPid id s.kernel ≠ pid) :
    Queue ⟨setQueue id ⟨(s.kernel.locks id).head, a⟩
        (setNext (s.kernel.locks id).tail a (newLock pid a s.kernel)),
      upd s.procs pid { s.procs pid with pc := .check id }⟩ id (m ++ [t, a]) := by
  subst hq
  rw [h.tail m t rfl]
  have hmem : ∀ x ∈ m ++ [t], x ≠ a := fun x hx he => hfresh (he ▸ h.live x hx)
  have hta : t ≠ a := hmem t (by simp)
  -- the process itself is not in the queue yet
  have hnot : ∀ x ∈ m ++ [t], (s.kernel.record x).pid ≠ pid := by
    intro x hx he
    obtain ⟨l, hl, -⟩ := h.run hx (he ▸ Proc.not_waits hrun)
    rw [hl] at h
    exact hhead (h.head.2.trans he)
  generalize hrec : (setNext t a (newLock pid a s.kernel)).record = record
  have hra : record a = ⟨pid, 0⟩ := by
    rw [← hrec, setNext, newLock]
    dsimp only
    rw [upd_ne _ _ hta.symm, upd_same]
  have hrt : record t = { s.kernel.record t with next := a } := by
    rw [← hrec, setNext, newLock]
    dsimp only
    rw [upd_same, upd_ne _ _ hta]
  have hrm : ∀ x ∈ m ++ [t], x ≠ t → record x = s.kernel.record x := by
    intro x hx hxt
    rw [← hrec, setNext, newLock]
    dsimp only
    rw [upd_ne _ _ hxt, upd_ne _ _ (hmem x hx)]
  have hpids : ∀ x ∈ m ++ [t], (record x).pid = (s.kernel.record x).pid := by
    intro x hx
    by_cases hxt : x = t
    · rw [hxt, hrt]
    · rw [hrm x hx hxt]
  have hm : ∀ x ∈ m, x ≠ t := by
    intro x hx he
    subst he
    have := h.nodup_addr
    rw [List.nodup_append] at this
    exact this.2.2 x hx x (by simp) rfl
  have hsplit : m ++ [t, a] = (m ++ [t]) ++ [a] := by simp
  constructor
  · dsimp only [setQueue]
    rw [upd_same, hrec]
    refine h.chain.snoc ha (fun x hx => ?_) (by rw [hrt]) (by rw [hra])
    rw [hrm x (List.mem_append_left _ hx) (hm x hx)]
  · intro l t' heq
    rw [hsplit] at heq
    obtain rfl := List.singleton_inj.1 (List.append_inj_right' heq rfl)
    simp [setQueue]
  · intro x hx
    rw [hsplit] at hx
    rcases List.mem_append.1 hx with hx | hx
    · exact List.mem_cons_of_mem _ (h.live x hx)
    · rw [List.mem_singleton.1 hx]
      exact List.mem_cons_self
  · dsimp only [setQueue]
    rw [hrec, hsplit, List.map_append, List.map_congr_left hpids, List.nodup_append]
    refine ⟨h.nodup, by simp, fun x hx y hy => ?_⟩
    obtain ⟨b, hb, rfl⟩ := List.mem_map.1 hx
    obtain rfl : y = (record a).pid := by simpa using hy
    rw [hra]
    exact hnot b hb
  · intro p hp
    dsimp only [setQueue] at hp ⊢
    have howns : (s.procs p).owns id = true := by
      by_cases hpp : p = pid
      · subst hpp
        rwa [upd_same] at hp
      · rwa [upd_ne _ _ hpp] at hp
    obtain ⟨b, l, heq, hb⟩ := h.owner p howns
    refine ⟨b, l ++ [a], by rw [hsplit, heq]; rfl, ?_⟩
    rw [hrec, hpids b (by rw [heq]; simp), hb]
  · intro b l heq
    dsimp only [setQueue]
    rw [hrec]
    obtain ⟨l', heq', rfl⟩ : ∃ l', m ++ [t] = b :: l' ∧ l = l' ++ [a] := by
      rw [hsplit] at heq
      cases hmt : m ++ [t] with
      | nil => simp at hmt
      | cons c l' =>
        rw [hmt] at heq
        cases heq
        exact ⟨l', rfl, rfl⟩
    obtain ⟨hb, hl⟩ := h.member b l' heq'
    have hin : ∀ x, x = b ∨ x ∈ l' → x ∈ m ++ [t] := fun x hx => by
      rw [heq']
      simpa using hx
    refine ⟨?_, fun c hc => ?_⟩
    · rw [hpids b (hin b (.inl rfl)), upd_ne _ _ (hnot b (hin b (.inl rfl)))]
      exact hb
    · rcases List.mem_append.1 hc with hc | hc
      · rw [hpids c (hin c (.inr hc)), upd_ne _ _ (hnot c (hin c (.inr hc)))]
        exact hl c hc
      · rw [List.mem_singleton.1 hc, hra, upd_same]
        exact .inl rfl
  · intro p hp
    dsimp only [setQueue] at hp ⊢
    rw [hrec]
    by_cases hpp : p = pid
    · exact ⟨a, by simp, by rw [hra, hpp]⟩
    · rw [upd_ne _ _ hpp] at hp
      obtain ⟨b, hb, hbp⟩ := h.waiter p hp
      exact ⟨b, by rw [hsplit]; exact List.mem_append_left _ hb, by rw [hpids b hb, hbp]⟩

/-- The owner's record leaves the queue. -/
theorem Queue.release (hq : q = a :: l) (hpid : (s.kernel.record a).pid = pid)
    (hrun : (s.procs pid).pc = .run) {k : Kernel} (hrec : k.record = s.kernel.record)
    (hlive : k.live = s.kernel.live.erase a)
    (hhead : (k.locks id).head = if l = [] then 0 else (s.kernel.record a).next)
    (htail : l ≠ [] → (k.locks id).tail = (s.kernel.locks id).tail) :
    Queue ⟨k, upd s.procs pid ((s.procs pid).leave id)⟩ id l := by
  subst hq
  have hnd := List.nodup_cons.1 h.nodup_addr
  have hne : ∀ b ∈ l, (s.kernel.record b).pid ≠ pid := fun b hb => hpid ▸ h.rest_ne hb
  -- the owner was the process that leaves
  have howner : ∀ p, (upd s.procs pid ((s.procs pid).leave id) p).owns id ≠ true := by
    intro p hp
    by_cases hpp : p = pid
    · subst hpp
      rw [upd_same] at hp
      exact Bool.false_ne_true ((upd_same _ _ _).symm.trans hp)
    · rw [upd_ne _ _ hpp] at hp
      obtain ⟨b, l', heq, hb⟩ := h.owner p hp
      cases heq
      exact hpp (hb.symm.trans hpid)
  constructor
  · dsimp only
    rw [hhead, hrec]
    have hc := h.chain.2.2
    split
    · rename_i hl
      rw [hl]
      rfl
    · exact hc
  · rintro m t rfl
    dsimp only
    rw [htail (by simp)]
    exact h.tail (a :: m) t rfl
  · intro b hb
    dsimp only
    rw [hlive]
    have hba : b ≠ a := fun he => hnd.1 (he ▸ hb)
    exact (List.mem_erase_of_ne hba).2 (h.live b (List.mem_cons_of_mem _ hb))
  · dsimp only
    rw [hrec]
    exact (List.nodup_cons.1 h.nodup).2
  · exact fun p hp => absurd hp (howner p)
  · rintro b m rfl
    dsimp only
    rw [hrec]
    refine ⟨.inr ?_, fun c hc => ?_⟩
    · rw [upd_ne _ _ (hne b List.mem_cons_self)]
      exact (h.member a _ rfl).2 b List.mem_cons_self
    · rw [upd_ne _ _ (hne c (List.mem_cons_of_mem _ hc))]
      exact (h.member a _ rfl).2 c (List.mem_cons_of_mem _ hc)
  · intro p hp
    dsimp only at hp ⊢
    rw [hrec]
    by_cases hpp : p = pid
    · subst hpp
      rw [upd_same] at hp
      exact absurd hp (Proc.not_waits hrun)
    · rw [upd_ne _ _ hpp] at hp
      obtain ⟨b, hb, hbp⟩ := h.waiter p hp
      rcases List.mem_cons.1 hb with rfl | hb
      · exact absurd (hbp.symm.trans hpid) hpp
      · exact ⟨b, hb, hbp⟩

/-- `unlock` by a process that is not at the head leaves the queue as it is. -/
theorem Queue.leave (hrun : (s.procs pid).pc = .run)
    (hhead : ∀ a l, q = a :: l → (s.kernel.record a).pid ≠ pid) {k : Kernel}
    (hrec : k.record = s.kernel.record) (hlive : k.live = s.kernel.live)
    (hlocks : k.locks = s.kernel.locks) :
    Queue ⟨k, upd s.procs pid ((s.procs pid).leave id)⟩ id q := by
  -- only a process at the head is outside the loop and in the queue
  have hne : ∀ b ∈ q, (s.kernel.record b).pid ≠ pid := by
    intro b hb he
    obtain ⟨l, hl, -⟩ := h.run hb (he ▸ Proc.not_waits hrun)
    exact hhead b l hl he
  constructor
  · dsimp only
    rw [hlocks, hrec]
    exact h.chain
  · dsimp only
    rw [hlocks]
    exact h.tail
  · dsimp only
    rw [hlive]
    exact h.live
  · dsimp only
    rw [hrec]
    exact h.nodup
  · intro p hp
    dsimp only at hp ⊢
    rw [hrec]
    by_cases hpp : p = pid
    · subst hpp
      rw [upd_same] at hp
      exact absurd ((upd_same _ _ _).symm.trans hp) Bool.false_ne_true
    · rw [upd_ne _ _ hpp] at hp
      exact h.owner p hp
  · intro a l heq
    obtain ⟨h1, h2⟩ := h.member a l heq
    dsimp only
    rw [hrec, upd_ne _ _ (hne a (by rw [heq]; simp))]
    refine ⟨h1, fun b hb => ?_⟩
    rw [upd_ne _ _ (hne b (by rw [heq]; simp [hb]))]
    exact h2 b hb
  · intro p hp
    dsimp only at hp ⊢
    rw [hrec]
    by_cases hpp : p = pid
    · subst hpp
      rw [upd_same] at hp
      exact absurd hp (Proc.not_waits hrun)
    · rw [upd_ne _ _ hpp] at hp
      exact h.waiter p hp

end

end

end Locking
