import Jaos.Locking.BLocking

/-!
# What the sections do to the lists

`Lists k queues`: the records at `queues id` form the list of the lock `id`, from its head to its tail,
for all locks at once. `lock_cases` and `unlock_cases` say what the two sections can do to these lists,
whoever runs them; every later proof about the locks starts from them.
-/

namespace Locking

open Lib

/-- The records at `q` are linked from the head of the lock to its tail. -/
structure Listed (k : Kernel) (lockid : Int) (q : List Nat) : Prop where
  chain : Chain (fun a => (k.record a).next) (k.locks lockid).head q
  tail : ∀ l t, q = l ++ [t] → (k.locks lockid).tail = t
  live : ∀ a ∈ q, a ∈ k.live
  nodup : q.Nodup

/-- Every lock has its list, and no record is in two. -/
structure Lists (k : Kernel) (queues : Int → List Nat) : Prop where
  listed : ∀ id, id ≠ -1 → Listed k id (queues id)
  apart : ∀ id id' a, id ≠ -1 → id' ≠ -1 → a ∈ queues id → a ∈ queues id' → id = id'

/-- The process of each record. -/
def pids (k : Kernel) (q : List Nat) : List Nat := q.map fun a => (k.record a).pid

section
variable {k k' : Kernel} {queues : Int → List Nat} {id : Int} {q l : List Nat} {a self lck : Nat}

/-! ## One list -/

theorem Listed.empty_iff (h : Listed k id q) : (k.locks id).head = 0 ↔ q = [] := h.chain.head_eq_zero

theorem Listed.head (h : Listed k id (a :: l)) :
    (k.locks id).head = a ∧ headPid id k = (k.record a).pid := by
  have := h.chain.1
  exact ⟨this, by rw [headPid, this]⟩

/-- The test for a single record. -/
theorem Listed.single_iff (h : Listed k id (a :: l)) : a = (k.locks id).tail ↔ l = [] := by
  rcases List.eq_nil_or_concat l with rfl | ⟨m, t, rfl⟩
  · simpa using (h.tail [] a rfl).symm
  · have ht := h.tail (a :: m) t (by simp)
    have hnd := h.nodup
    rw [ht]
    simp only [List.concat_eq_append, List.append_eq_nil_iff, List.cons_ne_self, and_false,
      iff_false]
    rintro rfl
    simp at hnd

/-- A list that a section does not touch. -/
theorem Listed.kept (h : Listed k id q) (hlocks : k'.locks id = k.locks id)
    (hrec : ∀ a ∈ q, (k'.record a).next = (k.record a).next)
    (hlive : ∀ a ∈ q, a ∈ k.live → a ∈ k'.live) : Listed k' id q := by
  refine ⟨?_, ?_, fun a ha => hlive a ha (h.live a ha), h.nodup⟩
  · rw [hlocks]
    exact h.chain.congr hrec
  · rw [hlocks]
    exact h.tail

/-- All locks are free. -/
theorem Lists.init (h : ∀ id, k.locks id = ⟨0, 0⟩) : Lists k fun _ => [] :=
  ⟨fun id _ => ⟨by rw [h id]; rfl, by simp, by simp, List.nodup_nil⟩, by simp⟩

/-! ## One lock with a new list -/

theorem Lists.update (L : Lists k queues) (hid : id ≠ -1) (hself : Listed k' id q)
    (hother : ∀ id', id' ≠ -1 → id' ≠ id → Listed k' id' (queues id'))
    (hmem : ∀ a ∈ q, a ∈ queues id ∨ ∀ id', id' ≠ -1 → a ∉ queues id') :
    Lists k' (upd queues id q) := by
  refine ⟨fun id' hne => ?_, fun i j a hi hj hai haj => ?_⟩
  · by_cases he : id' = id
    · rw [he, upd_same]
      exact hself
    · rw [upd_ne _ _ he]
      exact hother id' hne he
  · -- a record of the new list was in the old one, or in none
    have hnew : ∀ j, j ≠ -1 → j ≠ id → a ∈ q → a ∉ queues j := by
      intro j hj hne ha haj
      rcases hmem a ha with h | h
      · exact hne (L.apart j id a hj hid haj h)
      · exact h j hj haj
    by_cases hii : i = id <;> by_cases hji : j = id
    · rw [hii, hji]
    · rw [hii, upd_same] at hai
      rw [upd_ne _ _ hji] at haj
      exact absurd haj (hnew j hj hji hai)
    · rw [hji, upd_same] at haj
      rw [upd_ne _ _ hii] at hai
      exact absurd hai (hnew i hi hii haj)
    · rw [upd_ne _ _ hii] at hai
      rw [upd_ne _ _ hji] at haj
      exact L.apart i j a hi hj hai haj

/-- The status of a task is in no list. -/
theorem Lists.status (L : Lists k queues) (status : Nat → Nat) :
    Lists { k with status } queues :=
  ⟨fun id hid => (L.listed id hid).kept rfl (fun _ _ => rfl) fun _ _ h => h, L.apart⟩

/-! ## `lock` -/

/-- The process has a new record `lck` at the end of the list. -/
structure Appended (k : Kernel) (queues : Int → List Nat) (id : Int) (pid lck : Nat) (k' : Kernel) :
    Prop where
  lists : Lists k' (upd queues id (queues id ++ [lck]))
  new : (k'.record lck).pid = pid
  old : ∀ a ∈ k.live, (k'.record a).pid = (k.record a).pid
  live : k'.live = lck :: k.live
  status : k'.status = k.status

theorem Lists.acquire (L : Lists k queues) (hid : id ≠ -1) (hlck : lck ≠ 0) (hfresh : lck ∉ k.live)
    (hq : queues id = []) :
    Appended k queues id self lck (setQueue id ⟨lck, lck⟩ (newLock self lck k)) := by
  have hne : ∀ a ∈ k.live, a ≠ lck := fun a ha he => hfresh (he ▸ ha)
  have hnew : ∀ id', id' ≠ -1 → lck ∉ queues id' := fun id' hne h =>
    hfresh ((L.listed id' hne).live _ h)
  refine ⟨?_, ?_, fun a ha => ?_, rfl, rfl⟩
  · rw [hq]
    refine L.update hid ⟨?_, fun l t heq => ?_, by simp [setQueue, newLock], by simp⟩
      (fun id' hid' he => (L.listed id' hid').kept (upd_ne _ _ he) (fun a ha => ?_)
        fun a _ ha => List.mem_cons_of_mem _ ha) (fun a ha => .inr ?_)
    · simp [setQueue, newLock, hlck]
    · obtain ⟨rfl, rfl⟩ : l = [] ∧ lck = t := by
        cases l with
        | nil => simpa using heq
        | cons b l => simp at heq
      simp [setQueue]
    · exact congrArg Lock.next (upd_ne _ _ (hne a ((L.listed id' hid').live a ha)))
    · rw [show a = lck by simpa using ha]
      exact hnew
  · exact congrArg Lock.pid (upd_same _ _ _)
  · exact congrArg Lock.pid (upd_ne _ _ (hne a ha))

theorem Lists.append (L : Lists k queues) (hid : id ≠ -1) (hlck : lck ≠ 0) (hfresh : lck ∉ k.live)
    {m : List Nat} {t : Nat} (hq : queues id = m ++ [t]) :
    Appended k queues id self lck (setQueue id ⟨(k.locks id).head, lck⟩
      (setNext (k.locks id).tail lck (newLock self lck k))) := by
  have h := L.listed id hid
  rw [hq] at h
  rw [h.tail m t rfl]
  have hne : ∀ a ∈ k.live, a ≠ lck := fun a ha he => hfresh (he ▸ ha)
  have hnew : ∀ id', id' ≠ -1 → lck ∉ queues id' := fun id' hne h =>
    hfresh ((L.listed id' hne).live _ h)
  have htl : t ∈ k.live := h.live t (by simp)
  have htlck : t ≠ lck := hne t htl
  have hrec : ∀ a, (setNext t lck (newLock self lck k)).record a =
      if a = t then { k.record t with next := lck } else if a = lck then ⟨self, 0⟩ else k.record a := by
    intro a
    unfold setNext newLock
    dsimp only
    by_cases hat : a = t
    · rw [if_pos hat, hat, upd_same, upd_ne _ _ htlck]
    · rw [if_neg hat, upd_ne _ _ hat]
      by_cases hal : a = lck
      · rw [if_pos hal, hal, upd_same]
      · rw [if_neg hal, upd_ne _ _ hal]
  generalize hk1 : setNext t lck (newLock self lck k) = k1 at hrec
  have hlocks1 : k1.locks = k.locks := by rw [← hk1]; rfl
  have hlive1 : k1.live = lck :: k.live := by rw [← hk1]; rfl
  have hstatus1 : k1.status = k.status := by rw [← hk1]; rfl
  have hm : ∀ a ∈ m, a ≠ t := by
    intro a ha he
    have := h.nodup
    rw [List.nodup_append] at this
    exact this.2.2 a ha t (by simp) he
  refine ⟨?_, ?_, fun a ha => ?_, hlive1, hstatus1⟩
  · rw [hq, show m ++ [t] ++ [lck] = m ++ [t, lck] by simp]
    refine L.update hid ⟨?_, fun l t' heq => ?_, fun a ha => ?_, ?_⟩
      (fun id' hid' he => (L.listed id' hid').kept ?_ (fun a ha => ?_) fun a _ ha => ?_)
      (fun a ha => ?_)
    · dsimp only [setQueue]
      rw [upd_same]
      refine h.chain.snoc hlck (fun a ha => ?_) ?_ ?_
      · rw [hrec, if_neg (hm a ha), if_neg (hne a (h.live a (List.mem_append_left _ ha)))]
      · rw [hrec, if_pos rfl]
      · rw [hrec, if_neg htlck.symm, if_pos rfl]
    · rw [show m ++ [t, lck] = (m ++ [t]) ++ [lck] by simp] at heq
      obtain rfl := List.singleton_inj.1 (List.append_inj_right' heq rfl)
      simp [setQueue]
    · dsimp only [setQueue]
      rw [hlive1]
      rw [show m ++ [t, lck] = (m ++ [t]) ++ [lck] by simp] at ha
      rcases List.mem_append.1 ha with ha | ha
      · exact List.mem_cons_of_mem _ (h.live a ha)
      · rw [List.mem_singleton.1 ha]
        exact List.mem_cons_self
    · rw [show m ++ [t, lck] = (m ++ [t]) ++ [lck] by simp, List.nodup_append]
      refine ⟨h.nodup, by simp, fun a ha b hb => ?_⟩
      rw [List.mem_singleton.1 hb]
      exact hne a (h.live a ha)
    · dsimp only [setQueue]
      rw [upd_ne _ _ he, hlocks1]
    · -- the tail of this lock is in no other list
      have hat : a ≠ t := fun hat => he (L.apart id' id a hid' hid ha (by rw [hq, hat]; simp))
      dsimp only [setQueue]
      rw [hrec, if_neg hat, if_neg (hne a ((L.listed id' hid').live a ha))]
    · dsimp only [setQueue]
      rw [hlive1]
      exact List.mem_cons_of_mem _ ha
    · rw [show m ++ [t, lck] = (m ++ [t]) ++ [lck] by simp] at ha
      rcases List.mem_append.1 ha with ha | ha
      · exact .inl (by rwa [hq])
      · exact .inr (by rw [List.mem_singleton.1 ha]; exact hnew)
  · dsimp only [setQueue]
    rw [hrec, if_neg htlck.symm, if_pos rfl]
  · dsimp only [setQueue]
    rw [hrec]
    split
    · rename_i hat
      rw [hat]
    · rw [if_neg (hne a ha)]

/-- **What `lock` can do**: nothing, for no lock and for the process at the head; or it puts a record
at the end of the list, and returns if that is the head. -/
theorem Lists.lock_cases (L : Lists k queues) (self : Nat) (id : Int) (hlck : lck ≠ 0)
    (hfresh : lck ∉ k.live) :
    lock self id lck k = (true, k) ∧ (id = -1 ∨ queues id ≠ [] ∧ headPid id k = self) ∨
    id ≠ -1 ∧ Appended k queues id self lck (lock self id lck k).2 ∧
      (queues id = [] ∧ (lock self id lck k).1 = true ∨
        queues id ≠ [] ∧ headPid id k ≠ self ∧ (lock self id lck k).1 = false) := by
  unfold lock
  by_cases hid : id = -1
  · rw [if_pos hid]
    exact .inl ⟨rfl, .inl hid⟩
  rw [if_neg hid]
  have h := L.listed id hid
  by_cases hhead : (k.locks id).head = 0
  · rw [if_pos hhead]
    have hq := h.empty_iff.1 hhead
    exact .inr ⟨hid, L.acquire hid hlck hfresh hq, .inl ⟨hq, rfl⟩⟩
  rw [if_neg hhead]
  have hq : queues id ≠ [] := fun hq => hhead (h.empty_iff.2 hq)
  by_cases hpid : headPid id k = self
  · rw [if_pos hpid]
    exact .inl ⟨rfl, .inr ⟨hq, hpid⟩⟩
  · rw [if_neg hpid]
    rcases List.eq_nil_or_concat (queues id) with hnil | ⟨m, t, hmt⟩
    · exact absurd hnil hq
    rw [List.concat_eq_append] at hmt
    exact .inr ⟨hid, L.append hid hlck hfresh hmt, .inr ⟨hq, hpid, rfl⟩⟩

/-! ## `unlock` -/

/-- `unlock` without the wake-up at its end, and whether it comes to that. -/
def unlockHead (self : Nat) (lockid : Int) (k : Kernel) : Bool × Kernel :=
  if lockid = -1 then (false, k)
  else
    let tmp := (k.locks lockid).head
    if tmp = 0 then (false, k)
    else if tmp = (k.locks lockid).tail then (false, kfree tmp (setQueue lockid ⟨0, 0⟩ k))
    else if headPid lockid k = self then
      (true, kfree tmp (setQueue lockid ⟨(k.record tmp).next, (k.locks lockid).tail⟩ k))
    else (true, k)

/-- The wake-up. -/
def wake (lockid : Int) (k : Kernel) : Kernel := changeTaskStatus (headPid lockid k) 0 k

theorem unlock_eq (self : Nat) (id : Int) (k : Kernel) :
    unlock self id k =
      if (unlockHead self id k).1 then wake id (unlockHead self id k).2 else (unlockHead self id k).2 := by
  unfold unlock unlockHead
  split
  · rfl
  dsimp only
  split
  · rfl
  split
  · rfl
  split <;> rfl

/-- The head of the list is gone. -/
theorem Lists.drop (L : Lists k queues) (hid : id ≠ -1) (hq : queues id = a :: l)
    (hrec : k'.record = k.record) (hlive : k'.live = k.live.erase a)
    (hother : ∀ id', id' ≠ id → k'.locks id' = k.locks id')
    (hhead : (k'.locks id).head = if l = [] then 0 else (k.record a).next)
    (htail : l ≠ [] → (k'.locks id).tail = (k.locks id).tail) : Lists k' (upd queues id l) := by
  have h := L.listed id hid
  rw [hq] at h
  have hnd := List.nodup_cons.1 h.nodup
  have hkeep : ∀ b, b ≠ a → b ∈ k.live → b ∈ k'.live := fun b hba hb => by
    rw [hlive]
    exact (List.mem_erase_of_ne hba).2 hb
  refine L.update hid ⟨?_, ?_, fun b hb => ?_, hnd.2⟩ (fun id' hid' he => ?_) (fun b hb => .inl ?_)
  · rw [hhead, hrec]
    have hc := h.chain.2.2
    split
    · rename_i hl
      rw [hl]
      rfl
    · exact hc
  · rintro m t rfl
    rw [htail (by simp)]
    exact h.tail (a :: m) t rfl
  · exact hkeep b (fun he => hnd.1 (he ▸ hb)) (h.live b (List.mem_cons_of_mem _ hb))
  · refine (L.listed id' hid').kept (hother id' he) (fun b _ => by rw [hrec]) fun b hb => ?_
    exact hkeep b fun hba => he (L.apart id' id b hid' hid hb (by rw [hq, hba]; simp))
  · rw [hq]
    exact List.mem_cons_of_mem _ hb

/-- **What `unlock` can do before its wake-up**: nothing, for no lock and a free one; remove the only
record; remove the head if it is the caller's; or nothing again. The last two end in the wake-up. -/
theorem Lists.unlock_cases (L : Lists k queues) (self : Nat) (id : Int) :
    (unlockHead self id k).2.record = k.record ∧ (unlockHead self id k).2.status = k.status ∧
    ((id = -1 ∨ queues id = []) ∧ unlockHead self id k = (false, k) ∨
      id ≠ -1 ∧ ∃ a l, queues id = a :: l ∧
        (l = [] ∧ (unlockHead self id k).1 = false ∧ Lists (unlockHead self id k).2 (upd queues id []) ∨
          l ≠ [] ∧ headPid id k = self ∧ (unlockHead self id k).1 = true ∧
            Lists (unlockHead self id k).2 (upd queues id l) ∨
          l ≠ [] ∧ headPid id k ≠ self ∧ unlockHead self id k = (true, k))) := by
  unfold unlockHead
  by_cases hid : id = -1
  · rw [if_pos hid]
    exact ⟨rfl, rfl, .inl ⟨.inl hid, rfl⟩⟩
  rw [if_neg hid]
  have h := L.listed id hid
  dsimp only
  by_cases hhead : (k.locks id).head = 0
  · rw [if_pos hhead]
    exact ⟨rfl, rfl, .inl ⟨.inr (h.empty_iff.1 hhead), rfl⟩⟩
  rw [if_neg hhead]
  obtain ⟨a, l, hal⟩ := List.exists_cons_of_ne_nil fun h' => hhead (h.empty_iff.2 h')
  have h' := h
  rw [hal] at h'
  rw [h'.head.1]
  by_cases hsingle : a = (k.locks id).tail
  · rw [if_pos hsingle]
    have hl := h'.single_iff.1 hsingle
    subst hl
    refine ⟨rfl, rfl, .inr ⟨hid, a, [], hal, .inl ⟨rfl, rfl, ?_⟩⟩⟩
    exact L.drop hid hal rfl rfl (fun id' he => upd_ne _ _ he) (by simp [kfree, setQueue]) (by simp)
  rw [if_neg hsingle]
  have hl : l ≠ [] := fun hl => hsingle (h'.single_iff.2 hl)
  by_cases hself : headPid id k = self
  · rw [if_pos hself]
    refine ⟨rfl, rfl, .inr ⟨hid, a, l, hal, .inr (.inl ⟨hl, hself, rfl, ?_⟩)⟩⟩
    exact L.drop hid hal rfl rfl (fun id' he => upd_ne _ _ he) (by simp [kfree, setQueue, hl])
      (by simp [kfree, setQueue])
  · rw [if_neg hself]
    exact ⟨rfl, rfl, .inr ⟨hid, a, l, hal, .inr (.inr ⟨hl, hself, rfl⟩)⟩⟩

end

end Locking
