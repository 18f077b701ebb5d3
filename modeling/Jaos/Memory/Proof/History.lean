import Jaos.Memory.AddressSpace
import Jaos.Memory.Proof.Spaces
import Jaos.Heap.Proof.AllocRun

/-!
# The history only grows

Every function of the memory manager adds to the history (`Grows`), so a history that is `Fine` at
the end of a function was so at each of its steps (`Fine.before`).
-/

namespace Paging

open Lib Memman Kheap

/-- **A history without surprises**: every event is in order, and `kmalloc_a` hands out no block
twice. -/
structure Fine (log : List Event) : Prop where
  ok : ∀ e ∈ log, e.Ok
  once : (blocks log).Nodup

instance (e : Event) : Decidable e.Ok := by
  unfold Event.Ok
  split <;> infer_instance

instance (e : Event) : Decidable e.Plain := by
  unfold Event.Plain
  split <;> infer_instance

instance (log : List Event) : Decidable (Fine log) :=
  decidable_of_iff ((∀ e ∈ log, e.Ok) ∧ (blocks log).Nodup)
    ⟨fun h => ⟨h.1, h.2⟩, fun h => ⟨h.1, h.2⟩⟩

theorem Fine.before {log log' : List Event} (h : Fine log') (hs : log <:+ log') : Fine log :=
  ⟨fun e he => h.ok e (hs.subset he), h.once.sublist (hs.filterMap _).sublist⟩

/-- Calls of `mem_free_block` have been added. -/
def FreesOnly (log log' : List Event) : Prop := ∃ addrs : List Nat, log' = addrs.map .freed ++ log

namespace FreesOnly

variable {log log' log'' : List Event}

theorem refl (log : List Event) : FreesOnly log log := ⟨[], rfl⟩

theorem cons (h : FreesOnly log log') (a : Nat) : FreesOnly log (.freed a :: log') := by
  obtain ⟨as, rfl⟩ := h
  exact ⟨a :: as, rfl⟩

theorem trans (h : FreesOnly log log') (h' : FreesOnly log' log'') : FreesOnly log log'' := by
  obtain ⟨as, rfl⟩ := h
  obtain ⟨as', rfl⟩ := h'
  exact ⟨as' ++ as, by rw [List.map_append, List.append_assoc]⟩

theorem suffix (h : FreesOnly log log') : log <:+ log' := by
  obtain ⟨as, rfl⟩ := h
  exact List.suffix_append _ _

theorem blocks (h : FreesOnly log log') : blocks log' = blocks log := by
  obtain ⟨as, rfl⟩ := h
  have hnone : Paging.blocks (as.map .freed) = [] :=
    List.filterMap_map.trans (List.filterMap_eq_nil_iff.2 fun _ _ => rfl)
  have happend : Paging.blocks (as.map .freed ++ log) =
      Paging.blocks (as.map .freed) ++ Paging.blocks log := List.filterMap_append
  rw [happend, hnone, List.nil_append]

theorem mem (h : FreesOnly log log') {e : Event} (he : e ∈ log') : e ∈ log ∨ ∃ a, e = .freed a := by
  obtain ⟨as, rfl⟩ := h
  rcases List.mem_append.1 he with he | he
  · obtain ⟨a, -, rfl⟩ := List.mem_map.1 he
    exact .inr ⟨a, rfl⟩
  · exact .inl he

end FreesOnly

/-- Freeing is no surprise. -/
theorem Fine.freesOnly {log log' : List Event} (h : Fine log) (hf : FreesOnly log log') : Fine log' := by
  refine ⟨fun e he => ?_, hf.blocks ▸ h.once⟩
  rcases hf.mem he with he | ⟨a, rfl⟩
  · exact h.ok e he
  · trivial

/-- `f` adds to the history. -/
def Grows (f : Kernel → Option Kernel) : Prop :=
  ∀ k k', f k = some k' → k.machine.log <:+ k'.machine.log

section
variable {f g : Kernel → Option Kernel} {k k' : Kernel} {m m' : Machine}

theorem Grows.bind (hf : Grows f) (hg : Grows g) : Grows fun k => (f k).bind g := by
  intro k k' h
  obtain ⟨k1, h1, h⟩ := Option.bind_eq_some_iff.1 h
  exact (hf k k1 h1).trans (hg k1 k' h)

theorem Grows.loop {body : Nat → Kernel → Option Kernel} (h : ∀ i, Grows (body i)) (n i : Nat) :
    Grows (loop body n i) := by
  induction n generalizing i with
  | zero =>
    intro k k' hk
    cases hk
    exact List.suffix_rfl
  | succ n ih => exact (h i).bind (ih (i + 1))

theorem Grows.whenPresent (h : Grows f) (a : Addr) : Grows (whenPresent a f) := by
  intro k k' hk
  obtain ⟨e, -, hk⟩ := Option.bind_eq_some_iff.1 hk
  split at hk
  · exact h k k' hk
  · cases hk
    exact List.suffix_rfl

theorem Grows.run {f : Machine → Option Machine} (h : ∀ m m', f m = some m' → m'.log = m.log) :
    Grows (Kernel.run f) := by
  intro k k' hk
  obtain ⟨m, hm, rfl⟩ := Option.map_eq_some_iff.1 hk
  exact ⟨[], (h _ _ hm).symm⟩

/-! ## Pages and blocks -/

theorem allocKernelPage_log {size : Nat} {v : Addr} (h : allocKernelPage size m = some (v, m')) :
    m.log <:+ m'.log := by
  obtain ⟨⟨ok, m1⟩, hfrom, he⟩ := Option.map_eq_some_iff.1 h
  have hlog := allocFrom_log hfrom
  have hm1 : m1.log = m'.log := by
    dsimp only at he
    split at he <;> cases he <;> rfl
  rw [← hm1]
  exact (List.suffix_cons _ _).trans hlog

theorem allocPage_log {virtual size : Nat} {v : Addr} (h : allocPage virtual size m = some (v, m')) :
    m.log <:+ m'.log := by
  obtain ⟨⟨ok, m1⟩, hfrom, he⟩ := Option.map_eq_some_iff.1 h
  cases he
  exact allocFrom_log hfrom

theorem kmallocInt_log {fuel sz align : Nat} {p : Addr}
    (h : kmallocInt fuel sz align k = some (p, k')) : k.machine.log <:+ k'.machine.log := by
  unfold kmallocInt at h
  split at h
  · cases h
    exact List.suffix_rfl
  split at h
  · obtain ⟨⟨p, h1, m1⟩, ha, he⟩ := Option.map_eq_some_iff.1 h
    cases he
    exact alloc_pages (P := fun m => k.machine.log <:+ m.log)
      (fun n t r hr hp => hp.trans (allocKernelPage_log hr)) ha List.suffix_rfl
  · obtain ⟨⟨p, m1⟩, ha, he⟩ := Option.map_eq_some_iff.1 h
    cases he
    exact allocKernelPage_log ha

theorem kmallocA_log {fuel sz : Nat} {p : Addr} (h : kmallocA fuel sz k = some (p, k')) :
    k.machine.log <:+ k'.machine.log := by
  obtain ⟨⟨p, k1⟩, hk, he⟩ := Option.map_eq_some_iff.1 h
  cases he
  exact (kmallocInt_log hk).trans (List.suffix_cons _ _)

theorem kheapInit_log {mem : Mem} {slots : Nat → Nat} (h : kheapInit mem slots k = some k') :
    k.machine.log <:+ k'.machine.log := by
  unfold kheapInit at h
  split at h
  · cases h
    exact List.suffix_rfl
  · obtain ⟨⟨p, m1⟩, ha, rfl⟩ := Option.map_eq_some_iff.1 h
    exact allocKernelPage_log ha

/-! ## `clone_pml4t` -/

theorem memClearBlock_log {a : Addr} (h : memClearBlock a m = some m') : m'.log = m.log := by
  obtain ⟨l, -, rfl⟩ := Option.map_eq_some_iff.1 h
  rfl

theorem memCopyBlock_log {a b : Addr} (h : memCopyBlock a b m = some m') : m'.log = m.log := by
  obtain ⟨l, -, h⟩ := Option.bind_eq_some_iff.1 h
  obtain ⟨t, -, rfl⟩ := Option.map_eq_some_iff.1 h
  rfl

theorem writeLink_log {a b : Addr} {fields : Nat → List (Entry → Entry)}
    (h : writeLink a b fields m = some m') : m'.log = m.log := by
  obtain ⟨x, -, h⟩ := Option.bind_eq_some_iff.1 h
  exact writeFields_log h

theorem grows_cloneTable {fuel : Nat} {a entry : Addr} {fill : Addr → Kernel → Option Kernel}
    (h : ∀ p, Grows (fill p)) : Grows (cloneTable fuel a entry fill) := by
  refine .whenPresent (fun k k' hk => ?_) a
  obtain ⟨⟨p, k1⟩, hp, hk⟩ := Option.bind_eq_some_iff.1 hk
  obtain ⟨k2, h2, hk⟩ := Option.bind_eq_some_iff.1 hk
  refine (kmallocA_log hp).trans (List.IsSuffix.trans ?_ (h p k2 k' hk))
  refine Grows.run (fun m m' hm => ?_) _ _ h2
  obtain ⟨m1, h1, hm⟩ := Option.bind_eq_some_iff.1 hm
  rw [writeLink_log hm, memClearBlock_log h1]

theorem grows_clonePage {fuel i z y : Nat} {pt : Addr} : Grows (clonePage fuel pt i z y) := by
  refine .whenPresent (fun k k' hk => ?_) _
  obtain ⟨⟨p, k1⟩, hp, hk⟩ := Option.bind_eq_some_iff.1 hk
  refine (kmallocA_log hp).trans (Grows.run (fun m m' hm => ?_) _ _ hk)
  obtain ⟨m1, h1, hm⟩ := Option.bind_eq_some_iff.1 hm
  rw [writeLink_log hm, memCopyBlock_log h1]

theorem grows_clonePt {fuel i z : Nat} {pd : Addr} : Grows (clonePt fuel pd i z) :=
  grows_cloneTable fun _ => .loop (fun _ => grows_clonePage) _ _

theorem grows_clonePd {fuel i : Nat} {pdp : Addr} : Grows (clonePd fuel pdp i) :=
  grows_cloneTable fun _ => .loop (fun _ => grows_clonePt) _ _

theorem cloneRoot_log {pml4 pdp : Addr} (h : cloneRoot pml4 pdp m = some m') : m'.log = m.log := by
  obtain ⟨m1, h1, h⟩ := Option.bind_eq_some_iff.1 h
  obtain ⟨m2, h2, h⟩ := Option.bind_eq_some_iff.1 h
  rw [writeLink_log h, memClearBlock_log h2, memClearBlock_log h1]

theorem cloneKernel_log {pml4 pdp : Addr} (h : cloneKernel pml4 pdp m = some m') :
    m'.log = m.log := by
  obtain ⟨e, -, h⟩ := Option.bind_eq_some_iff.1 h
  obtain ⟨m1, h1, h⟩ := Option.bind_eq_some_iff.1 h
  obtain ⟨l, -, rfl⟩ := Option.map_eq_some_iff.1 h1
  have := writeLink_log h
  exact this

theorem clonePml4t_log {fuel phys : Nat} (h : clonePml4t fuel k = some (phys, k')) :
    k.machine.log <:+ k'.machine.log := by
  obtain ⟨⟨c4, k1⟩, h1, h⟩ := Option.bind_eq_some_iff.1 h
  obtain ⟨⟨c3, k2⟩, h2, h⟩ := Option.bind_eq_some_iff.1 h
  obtain ⟨k3, h3, h⟩ := Option.bind_eq_some_iff.1 h
  obtain ⟨k4, h4, h⟩ := Option.bind_eq_some_iff.1 h
  obtain ⟨k5, h5, h⟩ := Option.bind_eq_some_iff.1 h
  obtain ⟨a, -, he⟩ := Option.map_eq_some_iff.1 h
  cases he
  have h12 := (kmallocA_log h1).trans (kmallocA_log h2)
  have h23 := h12.trans (Grows.run (fun _ _ => cloneRoot_log) _ _ h3)
  have h34 := h23.trans (Grows.loop (fun _ => grows_clonePd) 3 0 _ _ h4)
  exact h34.trans (Grows.run (fun _ _ => cloneKernel_log) _ _ h5)

/-! ## `clean_user_space` -/

theorem ifPresent_log {a : Addr} {body : Machine → Option Machine}
    (hbody : ∀ m m', body m = some m' → FreesOnly m.log m'.log) (h : ifPresent a body m = some m') :
    FreesOnly m.log m'.log := by
  obtain ⟨e, -, h⟩ := Option.bind_eq_some_iff.1 h
  split at h
  · exact hbody m m' h
  · cases h
    exact .refl _

theorem loop_log {body : Nat → Machine → Option Machine} {n i : Nat}
    (hbody : ∀ i m m', body i m = some m' → FreesOnly m.log m'.log) (h : loop body n i m = some m') :
    FreesOnly m.log m'.log :=
  loop_invariant (P := fun _ m1 => FreesOnly m.log m1.log)
    (fun i m1 m2 _ _ h1 h2 => h1.trans (hbody i m1 m2 h2)) (.refl _) h

theorem cleanPage_log {i z y : Nat} (h : cleanPage i z y m = some m') : FreesOnly m.log m'.log := by
  obtain ⟨e, -, h⟩ := Option.bind_eq_some_iff.1 h
  split at h
  · obtain ⟨l, -, rfl⟩ := Option.map_eq_some_iff.1 h
    exact (FreesOnly.refl _).cons _
  · cases h
    exact .refl _

theorem cleanUserSpace_log (h : cleanUserSpace m = some m') : FreesOnly m.log m'.log :=
  loop_log (fun _ _ _ => ifPresent_log fun _ _ => loop_log fun _ _ _ =>
    ifPresent_log fun _ _ => loop_log fun _ _ _ => cleanPage_log) h

end

end Paging
