import Jaos.Memory.Proof.SpacesRun

/-!
# The pages handed out by `alloc_kernel_page`

`KernelMapped base m`: from page `base` on, every kernel page below `_kernel_next_block` is mapped.
Every function of the memory manager keeps this (`StaysMapped`): `alloc_kernel_page` maps what it
hands out, and everything else leaves the kernel's pages alone, the copies that `clone_pml4t` makes
included.

`pageCalls` are the calls of `alloc_kernel_page` in the history. They are `Unbroken` when each of
them begins where the one before ended, that is when none of them failed.
-/

namespace Paging

open Lib Memman Kheap

/-! ## Calls that did not fail -/

/-- The first page and the number of pages of every call of `alloc_kernel_page`, the last call
first. -/
def pageCalls (log : List Event) : List (Nat × Nat) :=
  log.filterMap fun e => match e with
    | .pages first size => some (first, size)
    | _ => none

/-- The calls lead up to the page `next` without a gap or a repetition. -/
def Unbroken : List (Nat × Nat) → (next : Nat) → Prop
  | [], _ => True
  | (first, size) :: calls, next => first + size = next ∧ Unbroken calls first

instance : (calls : List (Nat × Nat)) → (next : Nat) → Decidable (Unbroken calls next)
  | [], _ => .isTrue trivial
  | (first, size) :: calls, next =>
    have := instDecidableUnbroken calls first
    inferInstanceAs (Decidable (first + size = next ∧ Unbroken calls first))

/-- **No call of `alloc_kernel_page` has failed.** -/
def Machine.PagesServed (m : Machine) : Prop := Unbroken (pageCalls m.log) m.nextBlock

instance (m : Machine) : Decidable m.PagesServed := inferInstanceAs (Decidable (Unbroken _ _))

section
variable {k k' : Kernel} {m m' : Machine} {a p : Addr} {user : Bool} {fuel : Nat}

@[simp] theorem pageCalls_table (f : Nat) (old : Nat → Entry) (log : List Event) :
    pageCalls (.table e f old :: log) = pageCalls log := rfl

@[simp] theorem pageCalls_block (addr limit : Nat) (frame : Option Nat) (log : List Event) :
    pageCalls (.block addr limit frame :: log) = pageCalls log := rfl

theorem FreesOnly.pageCalls {log log' : List Event} (h : FreesOnly log log') :
    pageCalls log' = Paging.pageCalls log := by
  obtain ⟨as, rfl⟩ := h
  induction as with
  | nil => rfl
  | cons a as ih => exact ih

@[simp] theorem pageCalls_pages (first size : Nat) (log : List Event) :
    pageCalls (.pages first size :: log) = (first, size) :: pageCalls log := rfl

theorem writeFields_nextBlock {gs : List (Entry → Entry)} (h : writeFields a gs m = some m') :
    m'.nextBlock = m.nextBlock := by
  induction gs generalizing m with
  | nil =>
    cases h
    rfl
  | cons g gs ih =>
    obtain ⟨m1, h1, h⟩ := Option.bind_eq_some_iff.1 h
    obtain ⟨l, -, hl⟩ := Option.map_eq_some_iff.1 h1
    rw [ih h, ← hl]

theorem linkTable_pageCalls (h : linkTable a user m = some m') :
    pageCalls m'.log = pageCalls m.log ∧ m'.nextBlock = m.nextBlock := by
  obtain ⟨e, -, h⟩ := Option.bind_eq_some_iff.1 h
  split at h
  · cases h
    exact ⟨rfl, rfl⟩
  · rw [writeFields_log h, writeFields_nextBlock h]
    exact ⟨rfl, rfl⟩

theorem createPage_pageCalls (h : createPageForCurrent a user m = some (p, m')) :
    pageCalls m'.log = pageCalls m.log ∧ m'.nextBlock = m.nextBlock := by
  obtain ⟨m1, h1, h⟩ := Option.bind_eq_some_iff.1 h
  obtain ⟨m2, h2, h⟩ := Option.bind_eq_some_iff.1 h
  obtain ⟨m3, h3, h⟩ := Option.map_eq_some_iff.1 h
  cases h
  obtain ⟨hc1, hn1⟩ := linkTable_pageCalls h1
  obtain ⟨hc2, hn2⟩ := linkTable_pageCalls h2
  obtain ⟨hc3, hn3⟩ := linkTable_pageCalls h3
  exact ⟨hc3.trans (hc2.trans hc1), hn3.trans (hn2.trans hn1)⟩

theorem allocFrom_pageCalls {address : Nat → Addr} {ok : Bool} {n i : Nat}
    (h : allocFrom address user n i m = some (ok, m')) :
    pageCalls m'.log = pageCalls m.log ∧ m'.nextBlock = m.nextBlock := by
  induction n generalizing i m with
  | zero =>
    cases h
    exact ⟨rfl, rfl⟩
  | succ n ih =>
    unfold Paging.allocFrom at h
    dsimp only at h
    split at h
    · cases h
      exact ⟨rfl, rfl⟩
    · obtain ⟨⟨q, m2⟩, hc, h⟩ := Option.bind_eq_some_iff.1 h
      obtain ⟨m3, hw, h⟩ := Option.bind_eq_some_iff.1 h
      obtain ⟨hc2, hn2⟩ := createPage_pageCalls hc
      obtain ⟨hc3, hn3⟩ := ih h
      rw [writeFields_log hw, hc2] at hc3
      rw [writeFields_nextBlock hw, hn2] at hn3
      exact ⟨hc3, hn3⟩

theorem allocPage_pageCalls {virtual size : Nat} (h : allocPage virtual size m = some (p, m')) :
    pageCalls m'.log = pageCalls m.log ∧ m'.nextBlock = m.nextBlock := by
  obtain ⟨⟨ok, m1⟩, hfrom, he⟩ := Option.map_eq_some_iff.1 h
  cases he
  exact allocFrom_pageCalls hfrom

theorem allocKernelPage_pageCalls {size : Nat} (h : allocKernelPage size m = some (p, m')) :
    pageCalls m'.log = (m.nextBlock, size) :: pageCalls m.log := by
  obtain ⟨⟨ok, m1⟩, hfrom, he⟩ := Option.map_eq_some_iff.1 h
  have hm1 : m1.log = m'.log := by
    dsimp only at he
    split at he <;> cases he <;> rfl
  rw [← hm1, (allocFrom_pageCalls hfrom).1, pageCalls_pages]

/-- A call that did not fail, and what that says about the calls before it. -/
theorem allocKernelPage_served {size : Nat} (h : allocKernelPage size m = some (p, m'))
    (hs : m'.PagesServed) : m.PagesServed ∧ m'.nextBlock = m.nextBlock + size := by
  unfold Machine.PagesServed at hs
  rw [allocKernelPage_pageCalls h] at hs
  exact ⟨hs.2, hs.1.symm⟩

end

/-- The pages of a call that did not fail end below the window. -/
theorem allocKernelPage_limit {size : Nat} {p : Addr} {m m' : Machine}
    (h : allocKernelPage size m = some (p, m')) (fine : Fine m'.log) :
    m.nextBlock + size ≤ windowPage := by
  have hmem : (m.nextBlock, size) ∈ pageCalls m'.log := by
    rw [allocKernelPage_pageCalls h]
    exact List.mem_cons_self
  obtain ⟨e, he, hcall⟩ := List.mem_filterMap.1 hmem
  cases e with
  | pages first size' =>
    simp only [Option.some.injEq, Prod.mk.injEq] at hcall
    obtain ⟨rfl, rfl⟩ := hcall
    exact fine.ok _ he
  | table => cases hcall
  | block => cases hcall
  | freed => cases hcall

/-! ## After `memman_init` -/

theorem initPage_pageCalls {a : Addr} {f : Nat} {m m' : Machine} (h : initPage a f m = some m') :
    pageCalls m'.log = pageCalls m.log ∧ m'.nextBlock = m.nextBlock := by
  obtain ⟨r, hc, hw⟩ := Option.bind_eq_some_iff.1 h
  rw [writeFields_log hw, writeFields_nextBlock hw]
  exact createPage_pageCalls hc

theorem writeLow_pageCalls {f i : Nat} {gs : List (Entry → Entry)} {m m' : Machine}
    (h : writeLow f i gs m = some m') : pageCalls m'.log = pageCalls m.log ∧ m'.nextBlock = m.nextBlock := by
  obtain ⟨-, he⟩ := Option.ite_none_right_eq_some.1 h
  cases he
  exact ⟨rfl, rfl⟩

theorem initPaging_pageCalls {blocks : Nat} {m m' : Machine} (h : initPaging blocks m = some m') :
    pageCalls m'.log = pageCalls m.log ∧ m'.nextBlock = add64 m.nextBlock 1 := by
  unfold initPaging at h
  dsimp only at h
  obtain ⟨m2, h2, h⟩ := Option.bind_eq_some_iff.1 h
  obtain ⟨m3, h3, h⟩ := Option.bind_eq_some_iff.1 h
  obtain ⟨m4, h4, h⟩ := Option.bind_eq_some_iff.1 h
  obtain ⟨m5, h5, h⟩ := Option.bind_eq_some_iff.1 h
  obtain ⟨m6, h6, rfl⟩ := Option.map_eq_some_iff.1 h
  obtain ⟨hc2, hn2⟩ := writeLow_pageCalls h2
  obtain ⟨hc3, hn3⟩ := writeLow_pageCalls h3
  obtain ⟨hc4, hn4⟩ : pageCalls m4.log = pageCalls m3.log ∧ m4.nextBlock = m3.nextBlock :=
    loop_invariant (P := fun _ t => pageCalls t.log = pageCalls m3.log ∧ t.nextBlock = m3.nextBlock)
      (fun _ _ _ _ _ hp hr => ⟨(initPage_pageCalls hr).1.trans hp.1, (initPage_pageCalls hr).2.trans hp.2⟩)
      ⟨rfl, rfl⟩ h4
  obtain ⟨hc5, hn5⟩ := initPage_pageCalls h5
  obtain ⟨hc6, hn6⟩ := initPage_pageCalls h6
  constructor
  · show pageCalls m6.log = _
    rw [hc6, hc5, hc4, hc3, hc2]
    rfl
  · show add64 m6.nextBlock 1 = _
    rw [hn6, hn5, hn4, hn3, hn2]

/-- The kernel's pages begin at 3 GB. -/
theorem Init.nextBlock {t : Sys} (h : Init t) : 0xC0000 < t.kernel.machine.nextBlock := by
  obtain @⟨kernelEnd, memoryMap, memory, phys, m, hb, hm⟩ := h
  have hlt := kernelBlocks_lt hb
  have hmax := (inv_init memory hb.toBoot).max
  unfold Paging.memmanInit at hm
  have h := (initPaging_pageCalls hm).2
  dsimp only at h hmax ⊢
  rw [h, hmax, @add64_of_lt (0xC0000000 / 0x1000) _ (by omega), add64_of_lt (by omega)]
  omega

/-- `memman_init` makes no call of `alloc_kernel_page`. -/
theorem Init.pageCalls {t : Sys} (h : Init t) : Paging.pageCalls t.kernel.machine.log = [] := by
  obtain ⟨-, hm⟩ := h
  unfold Paging.memmanInit at hm
  exact (initPaging_pageCalls hm).1

/-! ## Pages that are mapped -/

/-- The kernel's pages from `base` on are mapped, below 4 GB. -/
def KernelMapped (base : Nat) (m : Machine) : Prop :=
  ∀ q, base ≤ q → q < m.nextBlock → q < 2 ^ 20 →
    ∃ n, translate m.phys m.cr3 (q * 0x1000) = some n

/-- What `m` maps of the kernel's pages is mapped in `m'`, up to the new end. -/
def StaysMapped (m m' : Machine) : Prop := ∀ base, KernelMapped base m → KernelMapped base m'

theorem StaysMapped.refl (m : Machine) : StaysMapped m m := fun _ h => h

theorem StaysMapped.trans {m m' m'' : Machine} (h : StaysMapped m m') (h' : StaysMapped m' m'') :
    StaysMapped m m'' := fun base hb => h' base (h base hb)

/-- A page below 4 GB. -/
theorem page_indices {q : Nat} (hq : q < 2 ^ 20) :
    Addr.pml4 (q * 0x1000) ≠ 511 ∧ Addr.frame (q * 0x1000) = q := by
  unfold Addr.pml4 Addr.frame
  omega

section
variable {X T : Nat → Prop} {kpd : Nat} {B : List Addr} {rs : List Nat} {s s' : Shape}
  {m m' : Machine} {k k' : Kernel} {p : Addr} {fuel : Nat}

/-- A page that is left alone stays mapped. -/
theorem Steady.kept_page {q n : Nat} (R : Steady kpd B rs s m) (hk : Keeps s T (next m.phys) (next m'.phys))
    (hcr3 : m'.cr3 = m.cr3) (hq : q < 2 ^ 20) (hT : ¬ T q)
    (h : translate m.phys m.cr3 (q * 0x1000) = some n) :
    translate m'.phys m'.cr3 (q * 0x1000) = some n := by
  obtain ⟨h4, hf⟩ := page_indices hq
  rw [hcr3]
  exact R.good.kept R.space.place h4 hk (by rwa [hf]) h

/-- A step that hands out no kernel page. -/
theorem Grown.staysMapped (G : Grown X s m s' m') (R : Steady kpd B rs s m)
    (hnb : m'.nextBlock = m.nextBlock) : StaysMapped m m' := by
  intro base h q hb hq hlt
  rw [hnb] at hq
  obtain ⟨n, hn⟩ := h q hb hq hlt
  exact ⟨n, R.kept_page G.keeps G.cr3 hlt (Nat.not_le.2 hq) hn⟩

/-- **`alloc_kernel_page`** maps the pages it hands out. -/
theorem Steady.allocKernelPage_mapped {size : Nat} (R : Steady kpd B rs s m)
    (h : Paging.allocKernelPage size m = some (p, m')) (fine : Fine m'.log) : StaysMapped m m' := by
  obtain ⟨s', -, A, -, hres⟩ := R.good.allocKernelPage R.space.current h fine.ok
  intro base hm q hb hq hlt
  by_cases hold : q < m.nextBlock
  · obtain ⟨n, hn⟩ := hm q hb hold hlt
    exact ⟨n, R.kept_page A.keeps A.cr3 hlt (fun hf => by unfold Fresh at hf; omega) hn⟩
  · rcases hres with ⟨-, hnb⟩ | ⟨-, hnb, hall⟩
    · omega
    · rw [A.cr3]
      exact hall q ⟨by omega, by omega⟩

/-- **`alloc`** expands by pages of `alloc_kernel_page`. -/
theorem Steady.alloc_mapped {size pageAlign : Nat} {h h' : Heap} (R : Steady kpd B rs s m)
    (ha : Kheap.alloc kernelPages fuel size pageAlign h m = some (p, h', m')) (fine : Fine m'.log) :
    ∃ s', Steady kpd B rs s' m' ∧ StaysMapped m m' := by
  refine alloc_pages (P := fun t => Fine t.log → ∃ s', Steady kpd B rs s' t ∧ StaysMapped m t)
    (fun n t r hr ih fine => ?_) ha (fun _ => ⟨s, R, .refl _⟩) fine
  obtain ⟨s1, R1, h1⟩ := ih (fine.before (allocKernelPage_log hr))
  obtain ⟨s2, R2, -, -⟩ := R1.allocKernelPage hr fine
  exact ⟨s2, R2, h1.trans (R1.allocKernelPage_mapped hr fine)⟩

theorem Steady.kmallocInt_mapped {sz align : Nat} (R : Steady kpd B rs s k.machine)
    (h : Paging.kmallocInt fuel sz align k = some (p, k')) (fine : Fine k'.machine.log) :
    StaysMapped k.machine k'.machine := by
  unfold Paging.kmallocInt at h
  split at h
  · cases h
    exact .refl _
  split at h
  · obtain ⟨⟨q, h1, m1⟩, ha, he⟩ := Option.map_eq_some_iff.1 h
    cases he
    obtain ⟨-, -, hmapped⟩ := R.alloc_mapped ha fine
    exact hmapped
  · obtain ⟨⟨q, m1⟩, ha, he⟩ := Option.map_eq_some_iff.1 h
    cases he
    exact R.allocKernelPage_mapped ha fine

theorem Steady.kmallocA_mapped {sz : Nat} (R : Steady kpd B rs s k.machine)
    (h : Paging.kmallocA fuel sz k = some (p, k')) (fine : Fine k'.machine.log) :
    StaysMapped k.machine k'.machine := by
  obtain ⟨⟨q, k1⟩, hk, he⟩ := Option.map_eq_some_iff.1 h
  cases he
  have h := R.kmallocInt_mapped hk (fine.before (List.suffix_cons _ _))
  exact fun base hb => h base hb

/-! ## `clone_pml4t` -/

section
variable {f r j : Nat} {q : Place} {a b : Addr}

theorem memClearBlock_nextBlock (h : memClearBlock a m = some m') : m'.nextBlock = m.nextBlock := by
  obtain ⟨l, -, rfl⟩ := Option.map_eq_some_iff.1 h
  rfl

theorem writeLink_nextBlock {fields : Nat → List (Entry → Entry)} (h : writeLink a b fields m = some m') :
    m'.nextBlock = m.nextBlock := by
  obtain ⟨n, -, h⟩ := Option.bind_eq_some_iff.1 h
  exact writeFields_nextBlock h

theorem cloneRoot_nextBlock (h : cloneRoot a b m = some m') : m'.nextBlock = m.nextBlock := by
  obtain ⟨m1, h1, h⟩ := Option.bind_eq_some_iff.1 h
  obtain ⟨m2, h2, h⟩ := Option.bind_eq_some_iff.1 h
  rw [writeLink_nextBlock h, memClearBlock_nextBlock h2, memClearBlock_nextBlock h1]

theorem cloneKernel_nextBlock (h : cloneKernel a b m = some m') : m'.nextBlock = m.nextBlock := by
  obtain ⟨e, -, h⟩ := Option.bind_eq_some_iff.1 h
  obtain ⟨m1, h1, h⟩ := Option.bind_eq_some_iff.1 h
  obtain ⟨l, -, hl⟩ := Option.map_eq_some_iff.1 h1
  rw [writeLink_nextBlock h, ← hl]

/-- A block is asked for, and its frame filled. -/
theorem Filling.seize_mapped {c : Addr} {m1 : Machine} {l : Nat × Nat} {g : Nat → Entry}
    (F : Filling kpd rs r p f q j s k.machine)
    (hk : Paging.kmallocA fuel Memman.memBlockSize k = some (c, k')) (fine : Fine k'.machine.log)
    (hl : locate c k'.machine = some l)
    (h1 : m1 = { k'.machine with phys := upd k'.machine.phys l.1 g }) : StaysMapped k.machine m1 := by
  obtain ⟨s1, n, R1, G1, hb, b⟩ := F.steady.kmallocA hk fine
  obtain ⟨x, hx, rfl⟩ := Option.map_eq_some_iff.1 hl
  obtain rfl : n = x := Option.some.inj (b.maps.symm.trans hx)
  have hnew : c ∉ blocks k.machine.log := by
    have := fine.once
    rw [hb] at this
    exact (List.nodup_cons.1 this).1
  obtain ⟨-, -, -, G2⟩ := R1.seize b hnew g
  subst h1
  exact (F.steady.kmallocA_mapped hk fine).trans (G2.staysMapped R1 rfl)

theorem Filling.clonePage_mapped {i z y : Nat} (F : Filling kpd rs r p f q y s k.machine)
    (h1 : q.level = 1) (hy : y < 512) (h : Paging.clonePage fuel p i z y k = some k')
    (fine : Fine k'.machine.log) : StaysMapped k.machine k'.machine := by
  rcases whenPresent_cases h with rfl | h
  · exact .refl _
  obtain ⟨⟨c, k1⟩, hk, h⟩ := Option.bind_eq_some_iff.1 h
  obtain ⟨m', hm, rfl⟩ := Option.map_eq_some_iff.1 h
  obtain ⟨m1, hcopy, hlink⟩ := Option.bind_eq_some_iff.1 hm
  have hlog : m'.log = k1.machine.log := by rw [writeLink_log hlink, memCopyBlock_log hcopy]
  rw [show (Kernel.mk m' k1.kheap).machine.log = m'.log from rfl, hlog] at fine
  obtain ⟨o, -, hcopy⟩ := Option.bind_eq_some_iff.1 hcopy
  obtain ⟨t, ht, he⟩ := Option.map_eq_some_iff.1 hcopy
  obtain ⟨s1, F1, -, b, hheld, -, -, -⟩ := F.seize hk fine ht he.symm
  have hseized := F.seize_mapped hk fine ht he.symm
  rw [F1.steady.writeLink F1.block b F1.otherTable hy] at hlink
  cases hlink
  obtain ⟨-, G2⟩ := F1.steady.mapPage (i := y) hheld F1.place h1 (F1.absent y (Nat.le_refl _) hy)
    (pageFields_spec (translate_lt b.maps) (m1.phys f y))
  exact hseized.trans (G2.staysMapped F1.steady rfl)

/-- **The rule for the loops**, next to `filling_loop`. -/
theorem mapped_loop {body : Nat → Kernel → Option Kernel} {n i : Nat} (hgrows : ∀ j, Grows (body j))
    (hbody : ∀ j s k k', i ≤ j → j < i + n → Filling kpd rs r p f q j s k.machine →
      body j k = some k' → Fine k'.machine.log →
      (∃ s', Filling kpd rs r p f q (j + 1) s' k'.machine ∧ Grown (· = f) s k.machine s' k'.machine) ∧
        StaysMapped k.machine k'.machine)
    (F : Filling kpd rs r p f q i s k.machine) (h : loop body n i k = some k')
    (fine : Fine k'.machine.log) : StaysMapped k.machine k'.machine := by
  induction n generalizing i s k with
  | zero =>
    cases h
    exact .refl _
  | succ n ih =>
    obtain ⟨k1, h1, h⟩ := Option.bind_eq_some_iff.1 h
    obtain ⟨⟨s1, F1, -⟩, hmapped⟩ := hbody i s k k1 (Nat.le_refl _) (by omega) F h1
      (fine.before (Grows.loop hgrows n (i + 1) k1 k' h))
    exact hmapped.trans (ih (fun j s k k' h1 h2 => hbody j s k k' (by omega) (by omega)) F1 h)

theorem Filling.cloneTable_mapped {a : Addr} {fill : Addr → Kernel → Option Kernel}
    (F : Filling kpd rs r p f q j s k.machine) (h2 : 2 ≤ q.level) (h3 : q.level < 4) (hj : j < 512)
    (hkernel : ¬ (q.level = 3 ∧ q.sub j = 3)) (hgrows : ∀ c, Grows (fill c))
    (hfill : ∀ c n s k k', Filling kpd rs r c n (q.child j) 0 s k.machine → fill c k = some k' →
      Fine k'.machine.log → StaysMapped k.machine k'.machine)
    (h : Paging.cloneTable fuel a (entryAt p j) fill k = some k') (fine : Fine k'.machine.log) :
    StaysMapped k.machine k'.machine := by
  rcases whenPresent_cases h with rfl | h
  · exact .refl _
  obtain ⟨⟨c, k1⟩, hk, h⟩ := Option.bind_eq_some_iff.1 h
  obtain ⟨k2, h, hrest⟩ := Option.bind_eq_some_iff.1 h
  obtain ⟨m', hm, rfl⟩ := Option.map_eq_some_iff.1 h
  obtain ⟨m1, hclear, hlink⟩ := Option.bind_eq_some_iff.1 hm
  have fine2 := fine.before (hgrows c _ _ hrest)
  have hlog : m'.log = k1.machine.log := by rw [writeLink_log hlink, memClearBlock_log hclear]
  rw [show (Kernel.mk m' k1.kheap).machine.log = m'.log from rfl, hlog] at fine2
  obtain ⟨t, ht, he⟩ := Option.map_eq_some_iff.1 hclear
  obtain ⟨s1, F1, -, b, hheld, -, hzero, -⟩ := F.seize hk fine2 ht he.symm
  have hseized := F.seize_mapped hk fine2 ht he.symm
  have hclean : ∀ i, m1.phys t.1 i = .zero := fun i => by rw [hzero]
  rw [F1.steady.writeLink F1.block b F1.otherTable hj] at hlink
  cases hlink
  have hne : t.1 ≠ f := F1.steady.good.forest.held_ne hheld F1.place
  obtain ⟨R2, G2⟩ := F1.steady.link (i := j) hheld hclean F1.place h2 hj (fun h => by omega)
    (F1.absent j (Nat.le_refl _) hj) (tableFields_spec (translate_lt b.maps) (m1.phys f j))
  have hown : (q.child j).owner = some r := (if_neg hkernel).trans F1.owner
  refine (hseized.trans (G2.staysMapped F1.steady rfl)).trans (hfill c t.1 _ ⟨_, k1.kheap⟩ k'
    ⟨R2, b.after F1.steady G2, Shape.adopt_same, hown, F1.other, fun i _ hi => ?_⟩ hrest fine)
  dsimp only
  rw [next_setEntry_ne fun h => hne h.1]
  exact next_zero hclean i hi

theorem Filling.clonePt_mapped {i z : Nat} (F : Filling kpd rs r p f q z s k.machine)
    (h2 : q.level = 2) (hz : z < 512) (h : Paging.clonePt fuel p i z k = some k')
    (fine : Fine k'.machine.log) : StaysMapped k.machine k'.machine :=
  F.cloneTable_mapped (by omega) (by omega) hz (by omega)
    (fun _ => .loop (fun _ => grows_clonePage) _ _)
    (fun _ _ _ _ _ F hr fine => mapped_loop (fun _ => grows_clonePage)
      (fun _ _ _ _ _ hy F hr fine =>
        ⟨F.clonePage (show q.level - 1 = 1 by omega) (by omega) hr fine,
          F.clonePage_mapped (show q.level - 1 = 1 by omega) (by omega) hr fine⟩) F hr fine) h fine

theorem Filling.clonePd_mapped {i : Nat} (F : Filling kpd rs r p f q i s k.machine) (h3 : q.level = 3)
    (hi : i < 3) (hregion : q.region = 0) (h : Paging.clonePd fuel p i k = some k')
    (fine : Fine k'.machine.log) : StaysMapped k.machine k'.machine :=
  F.cloneTable_mapped (by omega) (by omega) (by omega) (by unfold Place.sub; omega)
    (fun _ => .loop (fun _ => grows_clonePt) _ _)
    (fun _ _ _ _ _ F hr fine => mapped_loop (fun _ => grows_clonePt)
      (fun _ _ _ _ _ hz F hr fine =>
        ⟨F.clonePt (show q.level - 1 = 2 by omega) (by omega) hr fine,
          F.clonePt_mapped (show q.level - 1 = 2 by omega) (by omega) hr fine⟩) F hr fine) h fine

/-- **`clone_pml4t`** keeps the kernel's pages mapped, those of the blocks it asks for included. -/
theorem Steady.clonePml4t_mapped {phys : Nat}
    (R : Steady kpd (blocks k.machine.log) rs s k.machine)
    (h : Paging.clonePml4t fuel k = some (phys, k')) (fine : Fine k'.machine.log) :
    StaysMapped k.machine k'.machine := by
  obtain ⟨⟨c4, k1⟩, h1, h⟩ := Option.bind_eq_some_iff.1 h
  obtain ⟨⟨c3, k2⟩, h2, h⟩ := Option.bind_eq_some_iff.1 h
  obtain ⟨k3, h3, h⟩ := Option.bind_eq_some_iff.1 h
  obtain ⟨k4, h4, h⟩ := Option.bind_eq_some_iff.1 h
  obtain ⟨k5, h5, h⟩ := Option.bind_eq_some_iff.1 h
  obtain ⟨a, -, he⟩ := Option.map_eq_some_iff.1 h
  cases he
  obtain ⟨m3, hm3, rfl⟩ := Option.map_eq_some_iff.1 h3
  obtain ⟨m5, hm5, rfl⟩ := Option.map_eq_some_iff.1 h5
  have fine4 : Fine k4.machine.log := cloneKernel_log hm5 ▸ fine
  have hlog3 : m3.log = k2.machine.log := cloneRoot_log hm3
  have fine2 : Fine k2.machine.log :=
    hlog3 ▸ fine4.before (Grows.loop (fun _ => grows_clonePd) 3 0 _ _ h4)
  have fine1 := fine2.before (kmallocA_log h2)
  obtain ⟨s1, n4, R1, G1, hb1, b4⟩ := R.kmallocA h1 fine1
  obtain ⟨s2, n3, R2, G2, hb2, b3⟩ := R1.kmallocA h2 fine2
  have honce := fine2.once
  rw [hb2, hb1] at honce
  obtain ⟨hnew3, honce⟩ := List.nodup_cons.1 honce
  obtain ⟨s3, R3, G3, N3, hzero, -, -⟩ := R2.cloneRoot (b4.after R1 G2) b3
    (List.nodup_cons.1 honce).1 hnew3 hm3
  rw [← hb1, ← hb2, ← hlog3] at R3
  have F3 : Filling kpd (n4 :: rs) n4 c3 n3 ⟨3, some n4, 0⟩ 0 s3 (Kernel.mk m3 k2.kheap).machine :=
    ⟨R3, N3.block3, N3.place3, rfl, N3.other, fun i _ _ => hzero i⟩
  obtain ⟨s4, F4, G4⟩ := filling_loop (fun _ => grows_clonePd)
    (fun i s k k' _ hi F hr fine => F.clonePd rfl (by omega) rfl hr fine) F3 h4 fine4
  obtain ⟨-, G5, -, -⟩ :=
    F4.steady.cloneKernel (N3.after R3 G4) (F4.absent 3 (by decide) (by decide)) hm5
  have hroot := (R.kmallocA_mapped h1 fine1).trans (R1.kmallocA_mapped h2 fine2)
  have htables := mapped_loop (fun _ => grows_clonePd) (fun _ _ _ _ _ hi F hr fine =>
    ⟨F.clonePd rfl (by omega) rfl hr fine, F.clonePd_mapped rfl (by omega) rfl hr fine⟩) F3 h4 fine4
  exact ((hroot.trans (G3.staysMapped R2 (cloneRoot_nextBlock hm3))).trans htables).trans
    (G5.staysMapped F4.steady (cloneKernel_nextBlock hm5))

end

end

end Paging
