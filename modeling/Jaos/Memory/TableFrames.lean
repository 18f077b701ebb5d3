import Jaos.Memory.Proof.Links
import Jaos.Memory.Proof.SpacesRun

/-!
# The frames of tables

`create_page_for_current` turns what `mem_alloc_block` returns into a present entry without looking
at it: when the frames run out, the entry leads to frame 0 (`table_null`). In every run of
`alloc_page` and `alloc_kernel_page` after `memman_init` that finds a frame for every table, one that
holds no entries, and maps no page of the window, each entry leads to the frame that was returned for
it, and no two of them share one (`tables_owned`).
-/

namespace Paging

open Lib Memman

/-- The machine and the entries that `create_page_for_current` has installed. -/
structure Traced where
  machine : Machine
  links : List Link

/-- What `memman_init` leaves. -/
inductive Traced.Init : Traced → Prop
  | mk {kernelEnd : Nat} {memoryMap : List MemoryRegion} {memory : Words} {phys : Phys}
      {m : Machine} : Machine.Boot kernelEnd memoryMap →
      memmanInit kernelEnd memoryMap memory phys loaderPml4 = some m →
      Traced.Init ⟨m, bootLinks kernelEnd memoryMap memory phys loaderPml4⟩

/-- A call of `alloc_page` or `alloc_kernel_page`, whether it succeeds or not. -/
def Traced.Step (t : Traced) (c : Call) (t' : Traced) : Prop :=
  ∃ p, c.run t.machine = some (p, t'.machine) ∧ t'.links = c.links t.machine ++ t.links

/-- No page of the call lies in the window. -/
def Call.Outside : Call → Prop
  | page virtual size => UserRange virtual size
  | kernelPages _ => True

/-- A call that maps no page of the window. -/
def OutsideStep (t : Traced) (c : Call) (t' : Traced) : Prop := t.Step c t' ∧ c.Outside

/-- **Every table has a frame of its own**, the one that was returned for it. -/
structure TablesOwned (t : Traced) : Prop where
  frame : ∀ l ∈ t.links, l.frame ≠ 0 ∧ next t.machine.phys l.table l.index = some l.frame
  once : ∀ l ∈ t.links, ∀ l' ∈ t.links, l.frame = l'.frame → l.table = l'.table ∧ l.index = l'.index

/-- The tables are in order, and so are the links. -/
def Traced.Inv (t : Traced) : Prop :=
  ∃ kpd rs s, Steady kpd (blocks t.machine.log) rs s t.machine ∧
    LinksOk t.machine.cr3 t.machine t.links

section
variable {t t' : Traced} {c : Call} {p : Place} {js ks : List Nat}

/-- A path is known by its length and the region at its end. -/
theorem Place.along_inj {n : Nat} (hj : js.length = n) (hk : ks.length = n)
    (hjs : ∀ i ∈ js, i < 512) (hks : ∀ i ∈ ks, i < 512)
    (h : (p.along js).region = (p.along ks).region) : js = ks := by
  induction n generalizing js ks with
  | zero => rw [List.length_eq_zero_iff.1 hj, List.length_eq_zero_iff.1 hk]
  | succ n ih =>
    rcases List.eq_nil_or_concat js with rfl | ⟨js, i, rfl⟩
    · cases hj
    rcases List.eq_nil_or_concat ks with rfl | ⟨ks, k, rfl⟩
    · cases hk
    rw [List.concat_eq_append] at hj hjs h ⊢
    rw [List.concat_eq_append] at hk hks h ⊢
    have hi := hjs i (by simp)
    have hk' := hks k (by simp)
    rw [Place.along_snoc, Place.along_snoc] at h
    have hregion : (p.along js).region * 512 + i = (p.along ks).region * 512 + k := h
    obtain rfl : i = k := by omega
    rw [List.length_append, List.length_singleton] at hj hk
    rw [ih (by omega) (by omega) (fun j hj => hjs j (List.mem_append_left _ hj))
      (fun j hj => hks j (List.mem_append_left _ hj)) (by omega)]

/-- The frame of a link is a table in the place behind its entry. -/
theorem InPlace.leads_place {s : Shape} {m : Machine} {r : Nat} {l : Link} (h : InPlace r m l js)
    (G : Good s m) (hr : s.place r = some (.root r)) :
    s.place l.frame = some ((Place.root r).along (js ++ [l.index])) := by
  have hw : walk (next m.phys) r (js ++ [l.index]) = some l.frame := by
    rw [walk_snoc, h.table, Option.bind_some, h.leads]
  refine (G.forest.walk_place hr ?_ h.index (fun _ => h.head) hw).1
  have := h.length
  rw [List.length_append, List.length_singleton]
  show js.length + 1 < 4
  omega

theorem Traced.Inv.owned (h : t.Inv) : TablesOwned t := by
  obtain ⟨kpd, rs, s, R, hls⟩ := h
  refine ⟨fun l hl => ?_, fun l hl l' hl' he => ?_⟩
  · obtain ⟨hne, js, hin⟩ := hls l hl
    exact ⟨hne, hin.leads⟩
  · obtain ⟨-, js, hin⟩ := hls l hl
    obtain ⟨-, ks, hin'⟩ := hls l' hl'
    have hplace := hin.leads_place R.good R.space.place
    have hplace' := hin'.leads_place R.good R.space.place
    rw [he, hplace'] at hplace
    have hsame := Option.some.inj hplace
    have hlevel := congrArg Place.level hsame
    rw [Place.along_level, Place.along_level, List.length_append, List.length_append,
      show (Place.root t.machine.cr3).level = 4 from rfl] at hlevel
    have h1 := hin.length
    have h2 := hin'.length
    simp only [List.length_cons, List.length_nil] at hlevel
    have hpath := Place.along_inj (n := js.length + 1) (by simp; omega) (by simp) hin'.index hin.index
      (congrArg Place.region hsame)
    obtain ⟨rfl, hindex⟩ := List.append_inj' hpath rfl
    have htable := hin.table
    rw [hin'.table] at htable
    exact ⟨(Option.some.inj htable).symm, (List.cons.inj hindex).1.symm⟩

theorem Traced.Inv.init (h : Traced.Init t) (fine : Fine t.machine.log) : t.Inv := by
  obtain ⟨hb, hm⟩ := h
  obtain ⟨kpd, s, R, -, hno⟩ := boot_steady True hb hm fine
  exact ⟨kpd, _, s, hno ▸ R, boot_links hb hm fine⟩

theorem Traced.Step.log (h : t.Step c t') : t.machine.log <:+ t'.machine.log := by
  obtain ⟨p, hrun, -⟩ := h
  cases c with
  | page virtual size => exact allocPage_log hrun
  | kernelPages size => exact allocKernelPage_log hrun

/-- **Every call keeps the links** and adds its own. -/
theorem Traced.Inv.step (h : t.Inv) (hs : t.Step c t') (hout : c.Outside)
    (fine : Fine t'.machine.log) : t'.Inv := by
  obtain ⟨kpd, rs, s, R, hls⟩ := h
  obtain ⟨p, hrun, hlinks⟩ := hs
  have hout' : ∀ virtual size, c = .page virtual size → UserRange virtual size := by
    rintro virtual size rfl
    exact hout
  have hnew := R.good.call_links R.space.current hout' hrun fine.ok hls
  rw [← hlinks] at hnew
  cases c with
  | page virtual size =>
    obtain ⟨s', T, R', -, -⟩ := R.allocPage hout hrun fine
    obtain ⟨s1, T1, -, A, -⟩ := R.good.allocPage R.space.current hout hrun fine.ok
    refine ⟨kpd, rs, s', R', ?_⟩
    rw [A.cr3]
    exact hnew
  | kernelPages size =>
    obtain ⟨s', R', A, hb⟩ := R.allocKernelPage hrun fine
    refine ⟨kpd, rs, s', hb ▸ R', ?_⟩
    rw [A.cr3]
    exact hnew

/-- **Tables have frames of their own** in a run outside the window in which `mem_alloc_block` returns
a frame without entries for every table. -/
theorem tables_owned (h : Reach Traced.Init OutsideStep t)
    (fine : Fine t.machine.log) : TablesOwned t := by
  have hinv : Fine t.machine.log → t.Inv := by
    refine h.invariant (fun t ht => Traced.Inv.init ht) fun t c t' ih hs fine => ?_
    exact (ih (fine.before hs.1.log)).step hs.1 hs.2 fine
  exact (hinv fine).owned

end

/-! ## The last frame -/

/-- `n` blocks from 1 MB on, and room for a kernel of one page. -/
def blocksMap (n : Nat) : List MemoryRegion := [⟨0x100000, n * 0x1000, 1⟩, ⟨0x200000, 0x10000, 1⟩]

theorem boot_blocksMap {n : Nat} (h : n = 6 ∨ n = 8) : Machine.Boot 0xC0001000 (blocksMap n) where
  regions := by rcases h with rfl | rfl <;> simp [blocksMap]
  image := by decide
  imageEnd := by decide
  room := by rcases h with rfl | rfl <;> decide
  image32 := by decide
  phys52 := by rcases h with rfl | rfl <;> decide

/-- `alloc_page(0x1000, 1)` right after `memman_init`. -/
def firstPage (n : Nat) : Option (Addr × Traced) :=
  (memmanInit 0xC0001000 (blocksMap n) (fun _ => 0) (fun _ _ => .zero) loaderPml4).bind fun m =>
    ((Call.page 0x1000 1).run m).map fun r => (r.1, ⟨r.2, (Call.page 0x1000 1).links m ++
      bootLinks 0xC0001000 (blocksMap n) (fun _ => 0) (fun _ _ => .zero) loaderPml4⟩)

theorem firstPage_reach {n : Nat} {r : Addr × Traced} (hn : n = 6 ∨ n = 8)
    (h : firstPage n = some r) :
    Reach Traced.Init OutsideStep r.2 := by
  obtain ⟨m, hm, h⟩ := Option.bind_eq_some_iff.1 h
  obtain ⟨⟨p, m'⟩, hrun, rfl⟩ := Option.map_eq_some_iff.1 h
  exact (Reach.start (.mk (boot_blocksMap hn) hm)).next (a := Call.page 0x1000 1)
    ⟨⟨p, hrun, rfl⟩, userRange_below (by decide)⟩

/-- A page with two tables of its own. -/
theorem tables_owned_first : ∃ t, Reach Traced.Init OutsideStep t ∧
    t.links.length = 6 ∧ TablesOwned t := by
  have hrun : (firstPage 8).map (fun r =>
      (r.2.links.length, decide (Fine r.2.machine.log))) = some (6, true) := by
    decide +kernel
  obtain ⟨r, hr, h⟩ := Option.map_eq_some_iff.1 hrun
  simp only [Prod.mk.injEq, decide_eq_true_eq] at h
  exact ⟨r.2, firstPage_reach (.inr rfl) hr, h.1, tables_owned (firstPage_reach (.inr rfl) hr) h.2⟩

/-- **The last frame goes to the page** and its table gets frame 0: `alloc_page(0x1000, 1)` succeeds
and leaves a present entry of level 3 that leads there. -/
theorem table_null :
    ∃ t, Reach Traced.Init OutsideStep t ∧
      ⟨257, 0, 0⟩ ∈ t.links ∧ next t.machine.phys 257 0 = some 0 ∧
      ∃ m, (Call.page 0x1000 1).run m = some (0x1000, t.machine) := by
  have hrun : (firstPage 6).map (fun r =>
      (r.1, r.2.links.head?.map fun l => (l.table, l.index, l.frame),
        next r.2.machine.phys 257 0)) = some (0x1000, some (257, 0, 0), some 0) := by
    decide +kernel
  obtain ⟨⟨p, t⟩, hr, h⟩ := Option.map_eq_some_iff.1 hrun
  simp only [Prod.mk.injEq] at h
  obtain ⟨rfl, hhead, hnext⟩ := h
  obtain ⟨l, hl, he⟩ := Option.map_eq_some_iff.1 hhead
  simp only [Prod.mk.injEq] at he
  obtain ⟨h1, h2, h3⟩ := he
  refine ⟨t, firstPage_reach (.inl rfl) hr, ?_, hnext, ?_⟩
  · have := List.mem_of_mem_head? hl
    rwa [show l = ⟨257, 0, 0⟩ by cases l; simp_all] at this
  · obtain ⟨m, hm, h⟩ := Option.bind_eq_some_iff.1 hr
    obtain ⟨⟨p, m'⟩, hrun, he⟩ := Option.map_eq_some_iff.1 h
    cases he
    exact ⟨m, hrun⟩

end Paging
