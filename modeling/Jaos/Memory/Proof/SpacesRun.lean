import Jaos.Memory.Proof.Boot
import Jaos.Memory.Proof.Clean

/-!
# Address spaces over a whole run

`SpacesOk b s`: the tables of all spaces form a forest, every root in the list is a space, and all of
them share one table for the gigabyte of the kernel. `memman_init` establishes it (`SpacesOk.init`) and
every step keeps it (`SpacesOk.step`), as long as the history has no surprises (`Fine`),
`alloc_page` stays outside the window and `clean_user_space` frees pages below 1 TB only (`Op.Low`).
With `b`, live heap blocks keep their frames; for this `clean_user_space` must not free one of them
(`CleansOwn`).
-/

namespace Paging

open Lib Memman Kheap

/-- **The invariant** (module doc). -/
def SpacesOk (b : Prop) (s : Sys) : Prop :=
  ∃ kpd sh, Steady kpd (blocks s.kernel.machine.log) s.spaces sh s.kernel.machine ∧ sh.backed = b ∧
    ∀ r ∈ s.spaces, IsSpace kpd sh s.kernel.machine r

/-- `alloc_page` maps pages outside the window. -/
def Op.Outside : Op → Prop
  | .allocPage virtual size => UserRange virtual size
  | _ => True

/-- `clean_user_space` frees pages below 1 TB. -/
def Op.Low (s : Sys) (op : Op) : Prop := op = .cleanUserSpace → FreesLow s.kernel.machine

/-- No page that `clean_user_space` frees shares its frame with a block from `kmalloc_a`. -/
def CleansOwn (s : Sys) : Prop :=
  ∀ a : Addr, a.frame < cleanEnd → a.pd ≠ 511 → a.pt < 510 → ∀ n,
    translate s.kernel.machine.phys s.kernel.machine.cr3 a = some n →
    ∀ r ∈ s.spaces, ∀ p ∈ blocks s.kernel.machine.log,
      translate s.kernel.machine.phys r p ≠ some n

section
variable {kpd : Nat} {B : List Addr} {rs : List Nat} {s s' : Shape} {m m' : Machine} {T : Nat → Prop}

/-! ## The history -/

theorem mem_blocks {log : List Event} {p : Addr} (h : p ∈ blocks log) :
    ∃ limit frame, Event.block p limit frame ∈ log := by
  obtain ⟨e, he, hp⟩ := List.mem_filterMap.1 h
  cases e with
  | block addr limit frame =>
    cases hp
    exact ⟨limit, frame, he⟩
  | table => cases hp
  | pages => cases hp
  | freed => cases hp

theorem Fine.kernel_block {log : List Event} {p : Addr} (fine : Fine log) (h : p ∈ blocks log) :
    0xC0000000 ≤ p := by
  obtain ⟨limit, frame, hl⟩ := mem_blocks h
  exact (fine.ok _ hl).2.1

/-- Live pages are kernel pages. -/
theorem Steady.live_kernel {log : List Event} (R : Steady kpd (blocks log) rs s m) (fine : Fine log)
    {q : Nat} (hq : s.live q) : 0xC0000 ≤ q := by
  have h : 0xC0000000 ≤ q * 0x1000 := fine.kernel_block (R.live q hq)
  omega

theorem Step.log {t t' : Sys} {op : Op} (h : Step t op t') :
    t.kernel.machine.log <:+ t'.kernel.machine.log := by
  cases h with
  | kheapInit h => exact kheapInit_log h
  | kmalloc h => exact kmallocInt_log h
  | allocPage h => exact allocPage_log h
  | allocKernelPage h => exact allocKernelPage_log h
  | clonePml4t h => exact clonePml4t_log h
  | cleanUserSpace h => exact (cleanUserSpace_log h).suffix
  | switchPaging h => exact List.suffix_rfl
  | store _ h =>
    obtain ⟨l, -, rfl⟩ := Option.map_eq_some_iff.1 h
    exact List.suffix_rfl

/-! ## The steps -/

/-- All spaces stay spaces. -/
theorem Good.spaces (G : Good s m) (hall : ∀ r ∈ rs, IsSpace kpd s m r) (hle : s.Le s')
    (hk : Keeps s T (next m.phys) (next m'.phys)) : ∀ r ∈ rs, IsSpace kpd s' m' r :=
  fun r hr => (hall r hr).after G hle hk

theorem Steady.allocPage {virtual size : Nat} {v : Addr} (R : Steady kpd (blocks m.log) rs s m)
    (hu : UserRange virtual size) (h : Paging.allocPage virtual size m = some (v, m'))
    (fine : Fine m'.log) :
    ∃ s' T, Steady kpd (blocks m'.log) rs s' m' ∧ s.Le s' ∧ Keeps s T (next m.phys) (next m'.phys) := by
  obtain ⟨s', T, G, A, hnb⟩ := R.good.allocPage R.space.current hu h fine.ok
  refine ⟨s', T, ⟨G, ?_, fun q hq => ?_, hnb ▸ R.limit, fun r hr => R.roots r (A.roots r hr)⟩, A.le,
    A.keeps⟩
  · rw [A.cr3]
    exact R.space.after R.good A.le A.keeps
  · rw [A.live] at hq
    rw [A.blocks]
    exact R.live q hq

/-- The number of the page on a path of tables. -/
theorem along_page {i4 i3 i2 i1 : Nat} (r : Nat) (h4 : i4 < 512) (h3 : i3 < 512) (h2 : i2 < 512)
    (h1 : i1 < 512) :
    Addr.indices (((Place.root r).along [i4, i3, i2]).sub i1 * 0x1000) = [i4, i3, i2, i1] := by
  have hsub : ((Place.root r).along [i4, i3, i2]).sub i1 = ((i4 * 512 + i3) * 512 + i2) * 512 + i1 := by
    simp only [Place.along, List.foldl_cons, List.foldl_nil, Place.root, Place.child, Place.sub]
    omega
  rw [hsub]
  exact Addr.indices_ofIndices h4 h3 h2 h1

theorem length_three {js : List Nat} (h : js.length = 3) : ∃ i4 i3 i2, js = [i4, i3, i2] :=
  match js, h with
  | [i4, i3, i2], _ => ⟨i4, i3, i2, rfl⟩

/-- What `CleansOwn` says of the pages, in terms of the tables. -/
theorem Steady.freesNoBlock {t : Sys} (R : Steady kpd (blocks t.kernel.machine.log) t.spaces s
    t.kernel.machine) (h : CleansOwn t) : FreesNoBlock s t.kernel.machine := by
  unfold FreesNoBlock
  intro a hend hpd hpt n hn x q j hq h1 hj hl hx
  obtain ⟨r, js, hr, hw, rfl, hlt, -⟩ := R.good.linked.walk_root R.good.forest hq
  have hlen := (Place.root r).along_level js
  rw [h1, show (Place.root r).level = 4 from rfl] at hlen
  obtain ⟨i4, i3, i2, rfl⟩ := length_three (show js.length = 3 by omega)
  refine h a hend hpd hpt n hn r (R.roots r hr) _ (R.live _ hl) ?_
  rw [translate, along_page r (hlt i4 (by simp)) (hlt i3 (by simp)) (hlt i2 (by simp)) hj]
  exact (@walk_snoc _ _ _ _ _ [i4, i3, i2]).trans (by rw [hw, Option.bind_some, hx])

/-- A store of a program hits no table. -/
theorem Steady.store {a : Nat} {e : Entry} (R : Steady kpd B rs s m)
    (hlive : ∀ q, s.live q → 0xC0000 ≤ q) (ha : a < 0xC0000000)
    (h : modify a (fun _ => e) m = some m') :
    (∀ f p, s.place f = some p → m'.phys f = m.phys f) ∧ m'.frames = m.frames ∧
      m'.cr3 = m.cr3 ∧ m'.nextBlock = m.nextBlock ∧ m'.log = m.log := by
  obtain ⟨l, hl, rfl⟩ := Option.map_eq_some_iff.1 h
  obtain ⟨n, hn, rfl⟩ := Option.map_eq_some_iff.1 hl
  refine ⟨fun f p hp => ?_, rfl, rfl, rfl, rfl⟩
  have h4 : Addr.pml4 a = 0 := by
    unfold Addr.pml4
    omega
  obtain ⟨t, ht, hlast⟩ := Option.bind_eq_some_iff.1 ((@walk_snoc _ _ _ _ _ (Addr.path a)).symm.trans hn)
  have hplace := (R.good.walk_path R.space.place (by rw [h4]; decide) (List.append_nil _).symm ht).1
  have hmaps : s.Maps (next m.phys) t (Addr.pt a) n := by
    refine ⟨_, hplace, by rw [along_path], (Addr.index_lt a).2.2.2, fun hq => ?_, hlast⟩
    have hq := hlive _ hq
    rw [sub_path] at hq
    unfold Addr.frame at hq
    omega
  refine setEntry_frame fun hf => ?_
  rw [hf, (R.good.forest.page t _ n hmaps).2.1] at hp
  cases hp

/-- The entry that maps a user page. -/
theorem Good.user_maps {a r n : Nat} (G : Good s m) (h : IsSpace kpd s m r)
    (hlive : ∀ q, s.live q → 0xC0000 ≤ q) (ha : a < 0xC0000000)
    (ht : translate m.phys r a = some n) :
    ∃ t, s.place t = some ⟨1, some r, a / 2 ^ 21⟩ ∧ s.Maps (next m.phys) t (Addr.pt a) n := by
  have h4 : Addr.pml4 a = 0 := by
    unfold Addr.pml4
    omega
  obtain ⟨t, hw, hlast⟩ := Option.bind_eq_some_iff.1 ((@walk_snoc _ _ _ _ _ (Addr.path a)).symm.trans ht)
  have hplace := (G.walk_path h.place (by rw [h4]; decide) (List.append_nil _).symm hw).1
  have hsub := sub_path r a
  refine ⟨t, ?_, _, hplace, by rw [along_path], (Addr.index_lt a).2.2.2, fun hq => ?_, hlast⟩
  · have h3 : Addr.pdp a < 3 := by
      unfold Addr.pdp
      omega
    have hregion : (Addr.pml4 a * 512 + Addr.pdp a) * 512 + Addr.pd a = a / 2 ^ 21 := by
      unfold Addr.pml4 Addr.pdp Addr.pd
      omega
    rw [hplace, along_path, if_neg (by omega), hregion]
  · have hq := hlive _ hq
    rw [hsub] at hq
    unfold Addr.frame at hq
    omega

/-! ## The processor's walk -/

/-- **The processor's walk** in a space whose tables were made of plain entries is the model's. -/
theorem Steady.hardware {r : Nat} (R : Steady kpd B rs s m) (h : IsSpace kpd s m r)
    (plain : ∀ e ∈ m.log, e.Plain) (a : Addr) :
    Paging.hardware m.phys r a.indices = translate m.phys r a := by
  refine hardware_eq fun g j hr => ?_
  obtain ⟨js, ks, hsplit, hw⟩ := hr
  have hlt := a.indices_lt
  have hlen := congrArg List.length hsplit
  rw [List.length_append, List.length_cons, show a.indices.length = 4 from rfl] at hlen
  obtain ⟨q, hq⟩ := R.good.forest.walk_table h.place (by show js.length < 4; omega)
    (fun i hi => hlt i (hsplit ▸ List.mem_append_left _ hi)) hw
  exact R.good.plain plain g q hq j (hlt j (by rw [hsplit]; simp))

end

/-! ## The run -/

section
variable {b : Prop} {s s' : Sys} {op : Op}

theorem SpacesOk.init (h : Init s) (fine : Fine s.kernel.machine.log) : SpacesOk b s := by
  obtain ⟨hb, hm⟩ := h
  obtain ⟨kpd, sh, R, hback, hno⟩ := boot_steady b hb hm fine
  refine ⟨kpd, sh, ?_, hback, fun r hr => ?_⟩
  · rw [hno]
    exact R
  · rw [List.mem_singleton.1 hr]
    exact R.space

/-- **Every step keeps the spaces.** -/
theorem SpacesOk.step (h : SpacesOk b s) (hs : Step s op s') (hout : op.Outside) (hlow : op.Low s)
    (hown : b → op = .cleanUserSpace → CleansOwn s) (fine : Fine s'.kernel.machine.log) :
    SpacesOk b s' := by
  have fine0 := fine.before hs.log
  obtain ⟨kpd, sh, R, hback, hall⟩ := h
  have G := R.good
  cases hs with
  | kheapInit h =>
    unfold Paging.kheapInit at h
    split at h
    · cases h
      exact ⟨kpd, sh, R, hback, hall⟩
    · obtain ⟨⟨p, m1⟩, ha, rfl⟩ := Option.map_eq_some_iff.1 h
      obtain ⟨sh', R', A, hb⟩ := R.allocKernelPage ha fine
      exact ⟨kpd, sh', hb ▸ R', A.le.backed.trans hback, G.spaces hall A.le A.keeps⟩
  | kmalloc h =>
    obtain ⟨sh', R', A, hb⟩ := R.kmallocInt h fine
    exact ⟨kpd, sh', hb ▸ R', A.le.backed.trans hback, G.spaces hall A.le A.keeps⟩
  | allocPage h =>
    obtain ⟨sh', T, R', hle, hk⟩ := R.allocPage hout h fine
    exact ⟨kpd, sh', R', hle.backed.trans hback, G.spaces hall hle hk⟩
  | allocKernelPage h =>
    obtain ⟨sh', R', A, hb⟩ := R.allocKernelPage h fine
    exact ⟨kpd, sh', hb ▸ R', A.le.backed.trans hback, G.spaces hall A.le A.keeps⟩
  | clonePml4t h =>
    obtain ⟨sh', R', A, hnew⟩ := R.clonePml4t h fine
    refine ⟨kpd, sh', R', A.le.backed.trans hback, fun r hr => ?_⟩
    rcases List.mem_cons.1 hr with rfl | hr
    · exact hnew
    · exact G.spaces hall A.le A.keeps r hr
  | cleanUserSpace h =>
    have hlive : ∀ q, sh.live q → cleanEnd ≤ q := fun q hq =>
      Nat.le_trans (by decide) (R.live_kernel fine0 hq)
    have C := G.cleanUserSpace R.space.current hlive (hlow rfl)
      (fun hb => R.freesNoBlock (hown (hback ▸ hb) rfl)) h
    have hspaces := G.spaces hall (.refl sh) C.keeps
    refine ⟨kpd, sh, ⟨C.good, ?_, ?_, C.nextBlock ▸ R.limit, R.roots⟩, hback, hspaces⟩
    · show IsSpace kpd sh _ _
      rw [Sys.with, C.cr3]
      exact R.space.after G (.refl sh) C.keeps
    · rw [Sys.with, C.log.blocks]
      exact R.live
  | @switchPaging root hr =>
    refine ⟨kpd, sh, ⟨⟨G.forest, G.linked, G.size, G.plain⟩, ?_, R.live, R.limit, R.roots⟩, hback, fun r hr => ?_⟩
    · have hspace := hall _ hr
      rw [← Nat.mul_div_cancel root (show 0 < 0x1000 by decide)] at hspace
      exact ⟨hspace.place, hspace.self, hspace.low⟩
    · have hspace := hall r hr
      exact ⟨hspace.place, hspace.self, hspace.low⟩
  | store ha h =>
    obtain ⟨hsame, hf, hcr3, hnb, hlog⟩ := R.store (fun q hq => R.live_kernel fine0 hq) ha h
    have hk : Keeps sh (fun _ => False) (next s.kernel.machine.phys) (next _) :=
      fun f p i n hp _ hn => by rwa [next_congr (hsame f p hp)]
    have hspaces := G.spaces hall (.refl sh) hk
    refine ⟨kpd, sh, ⟨⟨?_, G.linked.keep (.refl sh) hk fun f p hp hn => ?_, ?_,
      G.plain.keep (hlog ▸ List.suffix_rfl) fun f p hp i hi => ?_⟩, ?_, ?_, ?_, R.roots⟩,
      hback, hspaces⟩
    · show Forest sh _ _
      rw [Sys.with, hf]
      exact G.forest.scribble fun f p hp => next_congr (hsame f p hp)
    · exact absurd (hn.symm.trans hp) (by simp)
    · rw [Sys.with, hf]
      exact G.size
    · rwa [Sys.with, hsame f p hp]
    · show IsSpace kpd sh _ _
      rw [Sys.with, hcr3]
      exact R.space.after G (.refl sh) hk
    · rw [Sys.with, hlog]
      exact R.live
    · rw [Sys.with, hnb]
      exact R.limit

/-- A step that maps no page of the window and frees no page above 1 TB. -/
def SpaceStep (s : Sys) (op : Op) (s' : Sys) : Prop := Step s op s' ∧ op.Outside ∧ op.Low s

/-- The spaces of a run. -/
theorem SpacesOk.run (h : Reach Init SpaceStep s) : Fine s.kernel.machine.log → SpacesOk False s := by
  refine h.invariant (fun s hs => SpacesOk.init hs) fun s op s' ih hs fine => ?_
  exact (ih (fine.before hs.1.log)).step hs.1 hs.2.1 hs.2.2 (fun hb => hb.elim) fine

end

end Paging
