import Jaos.Memory.Proof.Links

/-!
# The entries that mapping pages writes

`Written user r A m m'`: from `m` to `m'` an entry changed only if it lies on the way from the root `r`
to a page of `A`, and then it is present, writable and has the `user` bit; an entry for a table changed
only if it was not present, and its table held no entry. The loop of `alloc_page` and
`alloc_kernel_page` writes such entries for its pages (`Good.allocFrom_written`), and leaves one at the
end of each way. So a page that it did not map is mapped as before (`Written.unmapped`).
-/

namespace Paging

open Lib Memman

/-- An entry as `linkTable` and the loop of `alloc_page` write it. -/
def Entry.Fresh (user : Bool) (e : Entry) : Prop := e.present = true ∧ e.rw = true ∧ e.user = user

/-- Entry `i` of the frame `f` is on the way from `r` to the page of `a`; `ks` are the indices behind. -/
def OnWay (m : Machine) (r : Nat) (a : Addr) (f i : Nat) (ks : List Nat) : Prop :=
  ∃ js, a.indices = js ++ i :: ks ∧ walk (next m.phys) r js = some f

/-- Entry `i` of `f` is that of a new table. -/
def NewTable (m m' : Machine) (f i : Nat) : Prop :=
  (m.phys f i).present = false ∧ ∀ j, j < 512 → (m.phys (m'.phys f i).frame.toNat j).present = false

/-- Only entries on the ways to pages of `A` change (module doc). -/
def Written (user : Bool) (r : Nat) (A : Addr → Prop) (m m' : Machine) : Prop :=
  ∀ f i, m'.phys f i = m.phys f i ∨ (m'.phys f i).Fresh user ∧ ∃ a, A a ∧ ∃ ks,
    OnWay m' r a f i ks ∧ (ks ≠ [] → NewTable m m' f i)

section
variable {user ok : Bool} {A A' : Addr → Prop} {s s' : Shape} {m m' m'' : Machine} {r f i n k : Nat}
  {a : Addr} {T : Nat → Prop} {ks : List Nat}

theorem indices_path (a : Addr) : a.indices = a.path ++ [a.pt] := rfl

/-- The tables on a way: a first part of the path. -/
theorem OnWay.path (h : OnWay m r a f i ks) : ∃ js l, a.path = js ++ l ∧ a.indices = js ++ i :: ks ∧
    walk (next m.phys) r js = some f := by
  obtain ⟨js, hjs, hw⟩ := h
  have hlen := congrArg List.length hjs
  rw [List.length_append, List.length_cons, show a.indices.length = 4 from rfl] at hlen
  obtain ⟨l, hl⟩ : js <+: a.path :=
    List.prefix_of_prefix_length_le ⟨_, hjs.symm⟩ (show a.path <+: a.indices from ⟨[a.pt], rfl⟩)
      (show js.length ≤ 3 by omega)
  exact ⟨js, l, hl.symm, hjs, hw⟩

theorem OnWay.reads (h : OnWay m r a f i ks) : Reads (next m.phys) r a.indices f i := by
  obtain ⟨js, hjs, hw⟩ := h
  exact ⟨js, ks, hjs, hw⟩

/-- The way goes on in the next table. -/
theorem OnWay.step {j : Nat} (h : OnWay m r a f i (j :: ks)) (hp : (m.phys f i).present = true) :
    OnWay m r a (m.phys f i).frame.toNat j ks := by
  obtain ⟨js, hjs, hw⟩ := h
  refine ⟨js ++ [i], by rw [hjs, List.append_assoc, List.singleton_append], ?_⟩
  rw [walk_snoc, hw]
  exact next_some.2 ⟨hp, rfl⟩

/-- A way is kept with the links. -/
theorem OnWay.kept (G : Good s m) (hr : s.place r = some (.root r)) (ha : a.pml4 ≠ 511)
    (hk : Keeps s T (next m.phys) (next m'.phys)) (h : OnWay m r a f i ks) : OnWay m' r a f i ks := by
  obtain ⟨js, l, hpath, hjs, hw⟩ := h.path
  exact ⟨js, hjs, (G.walk_path hr ha hpath hw).2 _ _ hk⟩

theorem Written.refl (user : Bool) (r : Nat) (A : Addr → Prop) (m : Machine) : Written user r A m m :=
  fun _ _ => .inl rfl

/-- The machines may differ in what is no memory. -/
theorem Written.congr {m1 m1' : Machine} (h : Written user r A m m') (h1 : m1.phys = m.phys)
    (h1' : m1'.phys = m'.phys) : Written user r A m1 m1' := by
  intro f i
  unfold OnWay NewTable
  rw [h1, h1']
  exact h f i

/-- Nothing was erased. -/
theorem Written.absent (h : Written user r A m m') (hp : (m'.phys f i).present = false) :
    (m.phys f i).present = false := by
  rcases h f i with h1 | ⟨hfresh, -⟩
  · rwa [← h1]
  · exact absurd hfresh.1 (by rw [hp]; decide)

/-- **One after the other**, where the second keeps the ways of the first. -/
theorem Written.trans (h : Written user r A m m') (h' : Written user r A' m' m'')
    (hway : ∀ a, A a → ∀ f i ks, OnWay m' r a f i ks → OnWay m'' r a f i ks) :
    Written user r (fun a => A a ∨ A' a) m m'' := by
  intro f i
  rcases h' f i with h2 | ⟨hfresh, a, ha, ks, hon, hnew⟩
  · unfold NewTable
    rw [h2]
    rcases h f i with h1 | ⟨hfresh, a, ha, ks, hon, hnew⟩
    · exact .inl h1
    · exact .inr ⟨hfresh, a, .inl ha, ks, hway a ha f i ks hon, hnew⟩
  · refine .inr ⟨hfresh, a, .inr ha, ks, hon, fun hks => ?_⟩
    obtain ⟨habs, hold⟩ := hnew hks
    exact ⟨h.absent habs, fun j hj => h.absent (hold j hj)⟩

/-! ## One page -/

/-- A link makes the entry of a new table. -/
theorem linkAt_new (hsize : m.frames.maxBlocks ≤ 2 ^ 40) (hp : ¬ (m.phys f i).present = true)
    (hlog : ∀ e ∈ (linkAt user a f i m).log, e.Ok) :
    ((linkAt user a f i m).phys f i).Fresh user ∧ NewTable m (linkAt user a f i m) f i := by
  have hnext := (next_some.1 (@linkAt_links m f i a user hsize hp).1).2
  refine ⟨?_, (Bool.eq_false_or_eq_true _).resolve_left hp, ?_⟩
  · unfold linkAt
    rw [if_neg hp]
    dsimp only
    rw [setEntry_same]
    exact ⟨rfl, rfl, rfl⟩
  · rw [hnext]
    unfold linkAt at hlog
    rw [if_neg hp] at hlog
    exact (hlog _ List.mem_cons_self).2

theorem linkPath_written (hsize : m.frames.maxBlocks ≤ 2 ^ 40)
    (hlog : ∀ e ∈ (linkPath user 4 0 r a.path m).log, e.Ok) :
    Written user r (· = a) m (linkPath user 4 0 r a.path m) := by
  revert hlog
  have key : (linkPath user 4 0 r a.path m).frames.maxBlocks ≤ 2 ^ 40 ∧
      ((∀ e ∈ (linkPath user 4 0 r a.path m).log, e.Ok) →
        Written user r (· = a) m (linkPath user 4 0 r a.path m)) := by
    refine linkPath_rule
      (P := fun m' => m'.frames.maxBlocks ≤ 2 ^ 40 ∧
        ((∀ e ∈ m'.log, e.Ok) → Written user r (· = a) m m'))
      ⟨hsize, fun _ => .refl _ _ _ _⟩ fun m' js i g e hpre hw ⟨hsize', ih⟩ => ?_
    refine ⟨by rwa [linkAt_maxBlocks], fun hlog => ?_⟩
    have ih := ih fun e he => hlog e (linkAt_log.subset he)
    by_cases hp : (m'.phys g i).present = true
    · -- the table is there already
      rw [show linkAt user e g i m' = m' from if_pos hp]
      exact ih
    have hkeep : ∀ {x j ks}, OnWay m' r a x j ks → OnWay (linkAt user e g i m') r a x j ks := by
      rintro x j ks ⟨ls, hls, hl⟩
      exact ⟨ls, hls, walk_mono linkAt_mono hl⟩
    have hlink : Written user r (· = a) m' (linkAt user e g i m') := by
      intro x j
      by_cases hx : x = g ∧ j = i
      · obtain ⟨rfl, rfl⟩ := hx
        obtain ⟨ks, hks⟩ := hpre
        obtain ⟨hfresh, hnew⟩ := linkAt_new hsize' hp hlog
        refine .inr ⟨hfresh, a, rfl, ks ++ [a.pt], hkeep ⟨js, ?_, hw⟩, fun _ => hnew⟩
        rw [indices_path, ← hks]
        simp
      · exact .inl (linkAt_ne hx)
    intro x j
    refine (ih.trans hlink (fun b hb f i ks hon => ?_) x j).imp_right
      fun ⟨hf, b, hb, hrest⟩ => ⟨hf, b, hb.elim id id, hrest⟩
    subst hb
    exact hkeep hon
  exact key.2

/-- **One page mapped.** -/
theorem Good.mapPage_written {p : Addr} {m1 m2 : Machine} (G : Good s m) (h : Current s m r)
    (hn : s.held n) (hlt : n < 2 ^ 40) (ha : a.pml4 ≠ 511)
    (hc : createPageForCurrent a user m = some (p, m1))
    (hw : writeFields p [.setPresent true, .setUser user, .setRw true, .setFrame n] m1 = some m2)
    (hlog : ∀ e ∈ m2.log, e.Ok) :
    Written user r (· = a) m m2 ∧ ∃ t, walk (next m2.phys) r a.path = some t ∧
      (m2.phys t a.pt).Fresh user := by
  rw [createPage_eq h.window a user] at hc
  obtain ⟨rfl, rfl⟩ := Prod.mk.inj (Option.some.inj hc)
  rw [writeFields_log hw] at hlog
  have hpath := linkPath_written G.size hlog
  obtain ⟨s1, G1, A1⟩ := G.linkPath (T := fun _ => True) h.place ha hlog
  obtain ⟨t, ht⟩ := @walk_linkPath m 4 0 r user a.path
  have h1 := h.after A1
  generalize Paging.linkPath user 4 0 r a.path m = m1 at *
  obtain ⟨phys, hphys, hfill, -, A2, -⟩ := G1.fill h1 (A1.held n hn) ha (pageEntry_spec hlt user) ht
  rw [hfill] at hw
  cases hw
  have hkeep := (A2 (fun _ => True) trivial).keeps
  have hway : ∀ f i ks, OnWay m1 r a f i ks → OnWay { m1 with phys } r a f i ks := fun f i ks hon =>
    hon.kept G1 h1.place ha hkeep
  have ht' : walk (next phys) r a.path = some t :=
    (G1.walk_path h1.place ha (List.append_nil _).symm ht).2 _ _ hkeep
  have hfresh : (phys t a.pt).Fresh user := by
    rw [hphys, setEntry_same]
    exact ⟨rfl, rfl, rfl⟩
  have hfilled : Written user r (· = a) m1 { m1 with phys } := by
    intro x j
    by_cases hx : x = t ∧ j = a.pt
    · obtain ⟨rfl, rfl⟩ := hx
      exact .inr ⟨hfresh, a, rfl, [], ⟨a.path, rfl, ht'⟩, fun h => absurd rfl h⟩
    · refine .inl ?_
      show phys x j = m1.phys x j
      rw [hphys, setEntry_ne hx]
  refine ⟨fun x j => ?_, t, ht', hfresh⟩
  refine (hpath.trans hfilled (fun b hb f i ks hon => ?_) x j).imp_right ?_
  · subst hb
    exact hway f i ks hon
  · rintro ⟨hf, b, hb, hrest⟩
    exact ⟨hf, b, hb.elim id id, hrest⟩

/-! ## The loop -/

/-- **What the loop writes.** If it runs to its end, the ways to its pages end in entries as it writes
them. -/
theorem Good.allocFrom_written {address : Nat → Addr} (G : Good s m) (h : Current s m r)
    (ha : ∀ j, i ≤ j → j < i + k → (address j).pml4 ≠ 511)
    (hrun : Paging.allocFrom address user k i m = some (ok, m')) (hlog : ∀ e ∈ m'.log, e.Ok) :
    Written user r (fun a => ∃ j, i ≤ j ∧ j < i + k ∧ a = address j) m m' ∧
      (ok = true → ∀ j, i ≤ j → j < i + k → ∃ t, walk (next m'.phys) r (address j).path = some t ∧
        (m'.phys t (address j).pt).Fresh user) := by
  induction k generalizing i s m with
  | zero =>
    cases hrun
    exact ⟨.refl _ _ _ _, fun _ j h1 h2 => by omega⟩
  | succ k ih =>
    unfold Paging.allocFrom at hrun
    dsimp only at hrun
    rcases G.allocBlock with ⟨h0, hf⟩ | ⟨n, hn0, hn, haddr, -, hheld, G1⟩
    · rw [if_pos h0, hf] at hrun
      cases hrun
      exact ⟨.refl _ _ _ _, fun hok => by cases hok⟩
    · rw [if_neg (by rw [haddr]; omega), haddr, Nat.mul_div_cancel _ (by decide)] at hrun
      obtain ⟨⟨p, m2⟩, hc, hrun⟩ := Option.bind_eq_some_iff.1 hrun
      obtain ⟨m3, hw, hrun⟩ := Option.bind_eq_some_iff.1 hrun
      have hlog3 : ∀ e ∈ m3.log, e.Ok := fun e he => hlog e ((allocFrom_log hrun).subset he)
      have h1 : Current (s.hold n) { m with frames := (memAllocBlock m.frames).2 } r :=
        ⟨h.place, ⟨h.window.root, h.window.loop⟩, h.cr3.imp id .inr⟩
      have hai := ha i (Nat.le_refl _) (by omega)
      obtain ⟨hwritten, t, ht, hfresh⟩ := G1.mapPage_written h1 (.inl rfl) hn hai hc hw hlog3
      obtain ⟨s1, G3, A, -, -⟩ := G1.mapPage (T := fun _ => True) h1 (.inl rfl) hai trivial
        (pageEntry_spec hn user) hc hw hlog3
      have h3 : Current (s1.drop n) m3 r := h.after (A.mapped hheld)
      have harest : ∀ j, i + 1 ≤ j → j < i + 1 + k → (address j).pml4 ≠ 511 := fun j h1 h2 =>
        ha j (by omega) (by omega)
      obtain ⟨hrest, hcover⟩ := ih G3 h3 harest hrun
      obtain ⟨s', G', A', -, -⟩ := G3.allocFrom h3 harest hrun hlog
      have hway : ∀ b, b = address i → ∀ f j ks, OnWay m3 r b f j ks → OnWay m' r b f j ks :=
        fun b hb f j ks hon => hon.kept G3 h3.place (hb ▸ hai) A'.keeps
      have hfirst : Written user r (· = address i) m m3 := hwritten.congr rfl rfl
      have hboth := hfirst.trans hrest hway
      constructor
      · intro f j
        refine (hboth f j).imp_right fun hnew => ?_
        obtain ⟨hf, b, hb, hrest⟩ := hnew
        refine ⟨hf, b, ?_, hrest⟩
        rcases hb with rfl | ⟨j', h1', h2', rfl⟩
        · exact ⟨i, Nat.le_refl _, by omega, rfl⟩
        · exact ⟨j', by omega, by omega, rfl⟩
      · intro hok j h1j h2j
        rcases Nat.eq_or_lt_of_le h1j with hij | hlt
        · -- the entry of page `i` is as written, or written again
          rw [← hij]
          refine ⟨t, (G3.walk_path h3.place hai (List.append_nil _).symm ht).2 _ _ A'.keeps, ?_⟩
          rcases hrest t (address i).pt with heq | ⟨hf, -⟩
          · rw [heq]
            exact hfresh
          · exact hf
        · exact hcover hok j hlt (by omega)

/-! ## Other pages -/

/-- How much of the way is left tells the level of the table. -/
theorem OnWay.level (G : Good s m) (hr : s.place r = some (.root r)) (ha : a.pml4 ≠ 511)
    (h : OnWay m r a f i ks) : ∃ p, s.place f = some p ∧ p.level = ks.length + 1 := by
  obtain ⟨js, l, hpath, hjs, hw⟩ := h.path
  refine ⟨_, (G.walk_path hr ha hpath hw).1, ?_⟩
  have hlen := congrArg List.length hjs
  rw [List.length_append, List.length_cons, show a.indices.length = 4 from rfl] at hlen
  rw [Place.along_level, show (Place.root r).level = 4 from rfl]
  omega

/-- An entry for a page is on the way to one page. -/
theorem OnWay.page {b : Addr} (G : Good s m) (hr : s.place r = some (.root r)) (ha : a.pml4 ≠ 511)
    (hb : b.pml4 ≠ 511) (h : OnWay m r a f i []) (h' : OnWay m r b f i []) : a.frame = b.frame := by
  have key : ∀ {a : Addr}, a.pml4 ≠ 511 → OnWay m r a f i [] →
      i = a.pt ∧ s.place f = some ((Place.root r).along a.path) := by
    rintro a ha ⟨js, hjs, hw⟩
    obtain ⟨rfl, hi⟩ := List.append_inj' (show a.path ++ [a.pt] = js ++ [i] from hjs) rfl
    exact ⟨(List.cons.inj hi).1.symm, (G.walk_path hr ha (List.append_nil _).symm hw).1⟩
  obtain ⟨hi, hp⟩ := key ha h
  obtain ⟨hi', hp'⟩ := key hb h'
  rw [← sub_path r a, ← sub_path r b, ← hi, ← hi', Option.some.inj (hp.symm.trans hp')]

/-- Two ways that meet are equally long. -/
theorem OnWay.length_eq {b : Addr} {ks' : List Nat} (G : Good s m) (hr : s.place r = some (.root r))
    (ha : a.pml4 ≠ 511) (hb : b.pml4 ≠ 511) (h : OnWay m r a f i ks) (h' : OnWay m r b f i ks') :
    ks'.length = ks.length := by
  obtain ⟨p, hp, hl⟩ := h.level G hr ha
  obtain ⟨p', hp', hl'⟩ := h'.level G hr hb
  rw [hp] at hp'
  cases hp'
  omega

section
variable (h : Written user r A m m') (G : Good s m') (hr : s.place r = some (.root r))
  (hA : ∀ b, A b → b.pml4 ≠ 511) (ha : a.pml4 ≠ 511)
include h G hr hA ha

/-- An entry for a table is as it was, or that of a new table. -/
theorem Written.link (hks : ks ≠ []) (hon : OnWay m' r a f i ks) :
    m'.phys f i = m.phys f i ∨ (m'.phys f i).Fresh user ∧ NewTable m m' f i := by
  refine (h f i).imp_right fun ⟨hfresh, b, hb, ks', hon', hnew⟩ => ⟨hfresh, hnew fun h0 => ?_⟩
  have hl := hon.length_eq G hr ha (hA b hb) hon'
  rw [h0] at hl
  exact hks (List.length_eq_zero_iff.1 hl.symm)

/-- The entry of a page that is not among those of `A` is as it was. -/
theorem Written.page (hno : ∀ b, A b → b.frame ≠ a.frame) (hon : OnWay m' r a f i []) :
    m'.phys f i = m.phys f i := by
  refine (h f i).resolve_right fun ⟨_, b, hb, ks', hon', _⟩ => ?_
  obtain rfl := List.length_eq_zero_iff.1 (hon.length_eq G hr ha (hA b hb) hon')
  exact hno b hb (hon'.page G hr (hA b hb) ha hon)

/-- **A page that is not among those of `A` is mapped as before**, if it is mapped. -/
theorem Written.unmapped (hno : ∀ b, A b → b.frame ≠ a.frame) (hn : translate m'.phys r a = some n)
    (hon : OnWay m' r a f i ks) : m'.phys f i = m.phys f i := by
  -- below a new table the way would go on through new entries, down to a page of `A`
  induction ks generalizing f i with
  | nil => exact h.page G hr hA ha hno hon
  | cons j ks ih =>
    rcases h.link G hr hA ha (List.cons_ne_nil _ _) hon with h1 | ⟨hfresh, hnew⟩
    · exact h1
    have hj : j < 512 := by
      obtain ⟨js, hjs, -⟩ := hon
      exact a.indices_lt j (hjs ▸ by simp)
    have hnext := hon.step hfresh.1
    have habs := hnew.2 j hj
    obtain ⟨x, hx⟩ := Reads.isSome hn hnext.reads
    rw [← ih hnext, (next_some.1 hx).1] at habs
    cases habs

end

end

end Paging
