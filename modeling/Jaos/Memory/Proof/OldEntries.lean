import Jaos.Memory.OldEntries
import Jaos.Memory.Proof.UserMemory

/-!
# A memory whose new tables are empty

`Veil m g`: the machine `g` has the tables of `m`, but where a new table of `m` has an old entry, that of
`g` has none. As long as no old entry is in the way (`Event.Clear`), the functions that map pages take the
same steps in both (`Veil.linkPath`, `Veil.mapPage`, `Veil.allocFrom`), and so do those that store bytes
(`Veil.storeByte`, `Veil.memcpy`). What is known of machines with empty tables so carries over to `m`.

`Extends m m'`: what happens to the history and the bitmap on the way from `m` to `m'`. A frame that becomes
a table is free before.
-/

namespace Paging

open Lib Memman

section
variable {L : List Event} {m m' m'' : Machine} {e : Event}

/-! ## The history -/

theorem Since.mono (h : Since L m e) (hm : m.log <:+ m'.log) : Since L m' e := by
  obtain ⟨new, hnew, he⟩ := h
  obtain ⟨l, hl⟩ := hm
  exact ⟨l ++ new, by rw [← hl, hnew, List.append_assoc], List.mem_append_right _ he⟩

theorem Since.mem (h : Since L m e) : e ∈ m.log := by
  obtain ⟨new, hnew, he⟩ := h
  exact hnew ▸ List.mem_append_left _ he

/-- Recorded before a moment, or later. -/
theorem Since.cases (hm : L <:+ m.log) (hm' : m.log <:+ m'.log) (h : Since L m' e) :
    Since L m e ∨ Since m.log m' e := by
  obtain ⟨new, hnew, he⟩ := h
  obtain ⟨l, hl⟩ := hm
  obtain ⟨l', hl'⟩ := hm'
  rw [← hl', ← hl, ← List.append_assoc] at hnew
  rw [← List.append_cancel_right hnew] at he
  rcases List.mem_append.1 he with he | he
  · exact .inr ⟨l', hl'.symm, he⟩
  · exact .inl ⟨l, hl.symm, he⟩

theorem not_since_self : ¬ Since m.log m e := by
  rintro ⟨new, hnew, he⟩
  rw [List.self_eq_append_left.1 hnew] at he
  cases he

/-- The last record. -/
theorem since_cons {e' : Event} (h : m'.log = e' :: m.log) : Since m.log m' e ↔ e = e' := by
  constructor
  · rintro ⟨new, hnew, he⟩
    rw [h, ← List.singleton_append] at hnew
    rw [← List.append_cancel_right hnew] at he
    exact List.mem_singleton.1 he
  · rintro rfl
    exact ⟨[e], by rw [h, List.singleton_append], List.mem_singleton.2 rfl⟩

/-- What happens to the history and the bitmap (module doc). -/
structure Extends (m m' : Machine) : Prop where
  log : m.log <:+ m'.log
  marks : Marks m.frames m'.frames
  tables : ∀ a f old, Since m.log m' (.table a f old) → f = 0 ∨ m.frames.memoryMap.bit f = false

theorem Extends.of_eq (hlog : m'.log = m.log) (hf : m'.frames = m.frames) : Extends m m' :=
  ⟨by rw [hlog], by rw [hf]; exact .refl _, fun _ _ _ ⟨new, hnew, he⟩ => by
    rw [hlog] at hnew
    rw [List.self_eq_append_left.1 hnew] at he
    cases he⟩

theorem Extends.refl (m : Machine) : Extends m m := .of_eq rfl rfl

theorem Extends.trans (h : Extends m m') (h' : Extends m' m'') : Extends m m'' := by
  refine ⟨h.log.trans h'.log, h.marks.trans h'.marks, fun a f old he => ?_⟩
  rcases he.cases h.log h'.log with he | he
  · exact h.tables a f old he
  · refine (h'.tables a f old he).imp_right fun hf => Bool.eq_false_iff.2 fun hbit => ?_
    rw [h.marks f hbit] at hf
    cases hf

theorem extends_linkAt {user : Bool} {a : Addr} {f i : Nat} : Extends m (linkAt user a f i m) := by
  unfold linkAt
  split
  · exact .refl m
  · refine ⟨List.suffix_cons _ _, memAllocBlock_marks _, fun a' f' old he => ?_⟩
    obtain ⟨-, rfl, -⟩ := Event.table.inj ((since_cons rfl).1 he)
    rcases allocBlock_spec m.frames with h0 | ⟨n, -, -, hbit, haddr, -⟩
    · exact .inl (by rw [h0, Nat.zero_div])
    · refine .inr ?_
      rwa [haddr, Nat.mul_div_cancel _ (show 0 < memBlockSize by decide)]

theorem extends_linkPath {user : Bool} {l q f : Nat} {is : List Nat} :
    Extends m (linkPath user l q f is m) :=
  linkPath_rule (P := fun m' => Extends m m') (.refl m) fun _ _ _ _ _ _ _ h => h.trans extends_linkAt

theorem extends_linkTable {user : Bool} {a : Addr} (h : linkTable a user m = some m') : Extends m m' := by
  obtain ⟨x, hx, -⟩ := Option.bind_eq_some_iff.1 h
  obtain ⟨⟨f, i⟩, hl, -⟩ := Option.map_eq_some_iff.1 hx
  rw [linkTable_eq hl] at h
  cases h
  exact extends_linkAt

theorem extends_createPage {user : Bool} {a p : Addr} (h : createPageForCurrent a user m = some (p, m')) :
    Extends m m' := by
  obtain ⟨m1, h1, h⟩ := Option.bind_eq_some_iff.1 h
  obtain ⟨m2, h2, h⟩ := Option.bind_eq_some_iff.1 h
  obtain ⟨m3, h3, h⟩ := Option.map_eq_some_iff.1 h
  cases h
  exact (extends_linkTable h1).trans ((extends_linkTable h2).trans (extends_linkTable h3))

theorem extends_mapFrame {a : Addr} {n : Nat} (h : mapFrame a n m = some m') : Extends m m' := by
  obtain ⟨⟨p, m1⟩, hc, hw⟩ := Option.bind_eq_some_iff.1 h
  exact (extends_createPage hc).trans (.of_eq (writeFields_log hw) (writeFields_frames hw))

theorem extends_alloc : Extends m { m with frames := (memAllocBlock m.frames).2 } :=
  ⟨List.suffix_rfl, memAllocBlock_marks _, fun _ _ _ h => (not_since_self h).elim⟩

theorem extends_allocFrom {address : Nat → Addr} {ok : Bool} {k i : Nat}
    (h : allocFrom address true k i m = some (ok, m')) : Extends m m' := by
  induction k generalizing i m with
  | zero =>
    cases h
    exact .refl _
  | succ k ih =>
    by_cases h0 : (memAllocBlock m.frames).1 = 0
    · rw [allocFrom] at h
      rw [if_pos h0] at h
      cases h
      exact extends_alloc
    · rw [allocFrom_succ h0] at h
      obtain ⟨m1, h1, h⟩ := Option.bind_eq_some_iff.1 h
      exact extends_alloc.trans ((extends_mapFrame h1).trans (ih h))

theorem extends_allocPage {virtual size : Nat} {p : Addr} (h : allocPage virtual size m = some (p, m')) :
    Extends m m' := by
  obtain ⟨⟨ok, m1⟩, hfrom, he⟩ := Option.map_eq_some_iff.1 h
  cases he
  exact extends_allocFrom hfrom

theorem extends_storeByte {a : Addr} {b : UInt8} (h : storeByte a b m = some m') : Extends m m' := by
  obtain ⟨n, -, rfl⟩ := storeByte_cases h
  exact .of_eq rfl rfl

theorem extends_memcpy {dest size : Nat} {src : Nat → UInt8} (h : memcpy dest src size m = some m') :
    Extends m m' :=
  loop_related .refl (fun _ _ _ => .trans) (fun _ _ _ => extends_storeByte) (memcpy_loop h)

end

/-! ## The veil -/

/-- The entries lead nowhere, or to the same frame with the same rights. -/
def SameLink (e e' : Entry) : Prop :=
  e'.present = e.present ∧ (e.present = true → e'.rw = e.rw ∧ e'.user = e.user ∧ e'.frame = e.frame)

/-- `f` is a table that is new in `M`. -/
def NewIn (L : List Event) (M : Machine) (f : Nat) : Prop := ∃ a old, Since L M (.table a f old)

/-- **The veil** (module doc). The history was `L` at the start, and `M` is the machine at the end; `c` is
what the entries of new tables are in `g` at first. The entries of the pages in `Q` have been filled. Where
`E` holds, nothing else differs. -/
structure Veil (E : Prop) (c : Entry) (L : List Event) (M : Machine) (Q : Nat → Prop) (s : Shape)
    (m g : Machine) : Prop where
  start : L <:+ m.log ∧ L <:+ g.log
  before : Extends m M
  space : UserSpace s g
  frames : g.frames = m.frames
  cr3 : g.cr3 = m.cr3
  ok : ∀ e ∈ g.log, e.Ok
  news : ∀ a f old, Since L g (.table a f old) → f ≠ 0 ∧ old = fun _ => c
  data : E → ∀ f, ¬ NewIn L M f → g.phys f = m.phys f
  same : ∀ f p, ¬ NewIn L M f → s.place f = some p → ∀ i, SameLink (m.phys f i) (g.phys f i)
  blank : ∀ f, NewIn L M f → s.place f = none → ∀ i, g.phys f i = c
  linked : ∀ a f old, Since L m (.table a f old) → ∃ p, s.place f = some p
  old : ∀ f p, NewIn L M f → s.place f = some p → p.level ≤ 3 ∧
    ∃ old, Since L m (.table (tableEntry p.level p.region) f old) ∧ ∀ i, (m.phys f i).rest = (old i).rest ∧
      (SameLink (m.phys f i) (g.phys f i) ∨ (g.phys f i).present = false ∧ m.phys f i = old i)
  filled : ∀ v, User v → Q v.frame → ∃ t, walk (next g.phys) g.cr3 v.path = some t ∧
    SameLink (m.phys t v.pt) (g.phys t v.pt)

/-- No old entry is in the way to `v`. -/
def ClearTo (L : List Event) (M : Machine) (mapped : Prop) (v : Addr) : Prop :=
  ∀ e, Since L M e → e.Clear mapped v

theorem SameLink.refl (e : Entry) : SameLink e e := ⟨rfl, fun _ => ⟨rfl, rfl, rfl⟩⟩

theorem SameLink.next {phys phys' : Phys} {f i : Nat} (h : SameLink (phys f i) (phys' f i)) :
    next phys f i = next phys' f i := by
  unfold Paging.next
  rw [h.1]
  cases hp : (phys f i).present with
  | false => rfl
  | true => rw [(h.2 hp).2.2]

/-- The indices of an address, split. -/
theorem indices_split {v : Addr} {js ks : List Nat} {i : Nat} (h : v.indices = js ++ i :: ks) :
    js = [] ∧ i = v.pml4 ∧ ks ≠ [] ∨ js = [v.pml4] ∧ i = v.pdp ∧ ks ≠ [] ∨
      js = [v.pml4, v.pdp] ∧ i = v.pd ∧ ks ≠ [] ∨ js = v.path ∧ i = v.pt ∧ ks = [] := by
  unfold Addr.indices at h
  unfold Addr.path
  rcases js with _ | ⟨j1, _ | ⟨j2, _ | ⟨j3, _ | ⟨j4, js⟩⟩⟩⟩ <;> simp at h
  · obtain ⟨rfl, rfl⟩ := h
    exact .inl ⟨rfl, rfl, by simp⟩
  · obtain ⟨rfl, rfl, rfl⟩ := h
    exact .inr (.inl ⟨rfl, rfl, by simp⟩)
  · obtain ⟨rfl, rfl, rfl, rfl⟩ := h
    exact .inr (.inr (.inl ⟨rfl, rfl, by simp⟩))
  · obtain ⟨rfl, rfl, rfl, rfl, rfl⟩ := h
    exact .inr (.inr (.inr ⟨rfl, rfl, rfl⟩))

theorem indices_prefix {v : Addr} {js ks : List Nat} {i : Nat} (h : v.indices = js ++ i :: ks) :
    i < 512 ∧ ∃ l, v.path = js ++ l := by
  obtain ⟨h4, h3, h2, h1⟩ := v.index_lt
  rcases indices_split h with ⟨rfl, rfl, -⟩ | ⟨rfl, rfl, -⟩ | ⟨rfl, rfl, -⟩ | ⟨rfl, rfl, -⟩
  · exact ⟨h4, _, rfl⟩
  · exact ⟨h3, _, rfl⟩
  · exact ⟨h2, _, rfl⟩
  · exact ⟨h1, [], (List.append_nil _).symm⟩

/-- The processor walks tables without reserved bits as the model does. -/
theorem UserSpace.hardware {s : Shape} {m : Machine} {v : Addr} (U : UserSpace s m)
    (hplain : ∀ e ∈ m.log, e.Plain) (hv : User v) :
    hardware m.phys m.cr3 v.indices = translate m.phys m.cr3 v := by
  refine hardware_eq fun f i ⟨js, ks, h, hw⟩ => ?_
  obtain ⟨hi, l, hl⟩ := indices_prefix h
  exact U.good.plain hplain f _ (U.good.walk_path U.current.place hv.lt.1 hl hw).1 i hi

section
variable {E P : Prop} {c : Entry} {L : List Event} {M m m' g : Machine} {Q : Nat → Prop} {s : Shape}
  {v a : Addr} {js ks : List Nat} {f i t : Nat} {p : Place}

/-- The address of the entry that leads to a table on the way to `v`. -/
theorem tableEntry_along (r : Nat) (v : Addr) :
    tableEntry ((Place.root r).along [v.pml4]).level ((Place.root r).along [v.pml4]).region =
        getPml4Entry v.pml4 ∧
      tableEntry ((Place.root r).along [v.pml4, v.pdp]).level
        ((Place.root r).along [v.pml4, v.pdp]).region = getPdpEntry v.pml4 v.pdp ∧
      tableEntry ((Place.root r).along v.path).level ((Place.root r).along v.path).region =
        getPdEntry v.pml4 v.pdp v.pd := by
  simp [Place.along, Place.root, Place.child, Place.sub, tableEntry, Addr.path, getPml4Entry, getPdpEntry,
    getPdEntry]

/-- A table on the way to `v`. -/
theorem Veil.place (V : Veil E c L M Q s m g) (hv : User v) (h : v.indices = js ++ i :: ks)
    (hw : walk (next g.phys) g.cr3 js = some f) :
    s.place f = some ((Place.root g.cr3).along js) := by
  obtain ⟨-, l, hl⟩ := indices_prefix h
  exact (V.space.good.walk_path V.space.current.place hv.lt.1 hl hw).1

/-- **No old entry is followed**: the entries on the way to `v` lead to the same frames. -/
theorem Veil.even (V : Veil E c L M Q s m g) (hclear : ClearTo L M P v) (hv : User v)
    (h : v.indices = js ++ i :: ks) (hq : ks = [] → Q v.frame ∨ ¬ P)
    (hw : walk (next g.phys) g.cr3 js = some f) : SameLink (m.phys f i) (g.phys f i) := by
  have hp := V.place hv h hw
  by_cases hnew : NewIn L M f
  · obtain ⟨hlevel, old, he, hsame⟩ := V.old f _ hnew hp
    rcases (hsame i).2 with hs | ⟨hg, hm⟩
    · exact hs
    obtain ⟨h3, h2, h1⟩ := hclear _ (he.mono V.before.log)
    -- the old entry is not present either
    have habs : (old i).present = false → SameLink (m.phys f i) (g.phys f i) := fun h0 =>
      ⟨by rw [hg, hm, h0], fun h => by rw [hm, h0] at h; cases h⟩
    rcases indices_split h with ⟨rfl, -⟩ | ⟨rfl, rfl, -⟩ | ⟨rfl, rfl, -⟩ | ⟨rfl, rfl, hks⟩
    · exact absurd hlevel (show ¬ 4 ≤ 3 by decide)
    · exact habs (h3 (tableEntry_along _ v).1).1
    · exact habs (h2 (tableEntry_along _ v).2.1).1
    · by_cases hmapped : Q v.frame
      · obtain ⟨t, ht, hs⟩ := V.filled v hv hmapped
        obtain rfl := Option.some.inj (hw.symm.trans ht)
        exact hs
      · exact habs ((h1 (tableEntry_along _ v).2.2).2 ((hq hks).resolve_left hmapped))
  · exact V.same f _ hnew hp i

/-- The tables on the way to `v` are the same. -/
theorem Veil.walk (V : Veil E c L M Q s m g) (hclear : ClearTo L M P v) (hv : User v)
    (hjs : v.path = js ++ ks) : walk (next m.phys) m.cr3 js = walk (next g.phys) g.cr3 js := by
  rw [V.cr3]
  refine walk_congr fun f i ⟨l, r, hl, hw⟩ => ?_
  have hindices : v.indices = l ++ i :: (r ++ (ks ++ [v.pt])) := by
    rw [indices_path, hjs, hl]
    simp
  exact (V.even hclear hv hindices (fun h => by simp at h) (V.cr3.symm ▸ hw)).next

/-- And so is the page, if its entry is. -/
theorem Veil.translate (V : Veil E c L M Q s m g) (hclear : ClearTo L M P v) (hv : User v)
    (hq : Q v.frame ∨ ¬ P) : translate m.phys m.cr3 v = translate g.phys g.cr3 v := by
  refine (@walk_snoc _ _ _ _ _ v.path).trans (.trans ?_ (@walk_snoc _ _ _ _ _ v.path).symm)
  rw [V.walk hclear hv (List.append_nil _).symm]
  cases ht : Lib.walk (next g.phys) g.cr3 v.path with
  | none => rfl
  | some t =>
    have hindices : v.indices = v.path ++ v.pt :: [] := rfl
    exact (V.even hclear hv hindices (fun _ => hq) ht).next

theorem Veil.window (V : Veil E c L M Q s m g) : Window m m.cr3 := by
  have hroot : next m.phys m.cr3 511 = some m.cr3 := by
    have hp := V.space.current.place
    have hnew : ¬ NewIn L M g.cr3 := fun h =>
      absurd (V.old _ _ h hp).1 (show ¬ 4 ≤ 3 by decide)
    rw [← V.cr3, (V.same _ _ hnew hp 511).next]
    exact V.space.current.window.loop
  exact ⟨hroot, hroot⟩

/-- The frames that become tables are free before. -/
theorem NewIn.free (hbefore : Extends m M) (hne : ∀ a f old, Since m.log M (.table a f old) → f ≠ 0)
    (h : NewIn m.log M f) : m.frames.memoryMap.bit f = false := by
  obtain ⟨a, old, he⟩ := h
  exact (hbefore.tables a f old he).resolve_left (hne a f old he)

/-- **Before the first new table**: other contents of the free frames. -/
theorem UserSpace.veil {phys : Phys} (U : UserSpace s m) (hok : ∀ e ∈ m.log, e.Ok) (hbefore : Extends m M)
    (hne : ∀ a f old, Since m.log M (.table a f old) → f ≠ 0)
    (hused : ∀ f, m.frames.memoryMap.bit f = true → phys f = m.phys f)
    (hnew : ∀ f, NewIn m.log M f → phys f = fun _ => c)
    (hdata : E → ∀ f, ¬ NewIn m.log M f → phys f = m.phys f) :
    Veil E c m.log M (fun _ => False) s m { m with phys } := by
  have htable : ∀ f p, s.place f = some p → phys f = m.phys f := fun f p hp =>
    hused f (U.good.forest.marked f p hp)
  refine ⟨⟨List.suffix_rfl, List.suffix_rfl⟩, hbefore, U.scribble htable, rfl, rfl, hok,
    fun _ _ _ he => (not_since_self he).elim, hdata, fun f p _ hp i => ?_, fun f hf _ i => ?_,
    fun _ _ _ he => (not_since_self he).elim, fun f p hf hp => ?_, fun _ _ hq => hq.elim⟩
  · show SameLink (m.phys f i) (phys f i)
    rw [htable f p hp]
    exact .refl _
  · exact congrFun (hnew f hf) i
  · have hfree := hf.free hbefore hne
    rw [U.good.forest.marked f p hp] at hfree
    cases hfree

/-- There are such contents that differ where tables are made only. -/
theorem exists_cleared (c : Entry) (hbefore : Extends m M)
    (hne : ∀ a f old, Since m.log M (.table a f old) → f ≠ 0) :
    ∃ phys : Phys, (∀ f, m.frames.memoryMap.bit f = true → phys f = m.phys f) ∧
      (∀ f, NewIn m.log M f → phys f = fun _ => c) ∧ ∀ f, ¬ NewIn m.log M f → phys f = m.phys f := by
  classical
  refine ⟨fun f => if NewIn m.log M f then fun _ => c else m.phys f, fun f hf => if_neg fun h => ?_,
    fun f hf => if_pos hf, fun f hf => if_neg hf⟩
  have hfree := h.free hbefore hne
  rw [hf] at hfree
  cases hfree

/-! ## Linking tables -/

/-- A table of `M` is one already, or still free. -/
theorem Veil.newIn_cases (V : Veil E c L M Q s m g) (h : NewIn L M f) :
    (∃ p, s.place f = some p) ∨ f = 0 ∨ m.frames.memoryMap.bit f = false := by
  obtain ⟨a, old, he⟩ := h
  rcases he.cases V.start.1 V.before.log with he | he
  · exact .inl (V.linked a f old he)
  · exact .inr (V.before.tables a f old he)

/-- A frame in use that is no table stays none. -/
theorem Veil.not_newIn (V : Veil E c L M Q s m g) (hu : g.frames.memoryMap.bit f = true)
    (hp : s.place f = none) (hne : ∀ a f old, Since L M (.table a f old) → f ≠ 0) : ¬ NewIn L M f := by
  intro h
  rcases V.newIn_cases h with ⟨q, hq⟩ | h0 | hf
  · rw [hp] at hq
    cases hq
  · obtain ⟨a, old, he⟩ := h
    exact hne a f old he h0
  · rw [← V.frames, hu] at hf
    cases hf

/-- The same links on both sides. -/
theorem SameLink.linkAt {user : Bool} (h : SameLink (m.phys f i) (g.phys f i))
    (hf : g.frames = m.frames) :
    SameLink ((linkAt user a f i m).phys f i) ((linkAt user a f i g).phys f i) := by
  unfold Paging.linkAt
  rw [h.1]
  split
  · exact h
  · dsimp only
    rw [setEntry_same, setEntry_same, hf]
    exact ⟨rfl, fun _ => ⟨rfl, rfl, rfl⟩⟩

/-- **A table linked**, in both. -/
theorem Veil.linkAt (V : Veil E c L M Q s m g) (hc : c.present = false) (hp : s.place f = some p)
    (h2 : 2 ≤ p.level) (hi : i < 512) (hself : ¬ (p.level = 4 ∧ i = 511))
    (hown : p.owner = some g.cr3 ∨ p.owner = none) (heven : SameLink (m.phys f i) (g.phys f i))
    (ha : a = tableEntry (p.level - 1) (p.region * 512 + i))
    (hbefore : Extends (linkAt true a f i m) M)
    (hne : ∀ a f old, Since L M (.table a f old) → f ≠ 0) :
    ∃ s', (∀ n, s.held n → s'.held n) ∧
      Veil E c L M Q s' (Paging.linkAt true a f i m) (Paging.linkAt true a f i g) := by
  by_cases hpres : (m.phys f i).present = true
  · have hpres' : (g.phys f i).present = true := heven.1.trans hpres
    refine ⟨s, fun _ h => h, ?_⟩
    rw [Paging.linkAt, Paging.linkAt, if_pos hpres, if_pos hpres']
    exact V
  have hpres' : ¬ (g.phys f i).present = true := fun h => hpres (heven.1.symm.trans h)
  -- the new table
  obtain ⟨n, hn⟩ : ∃ n, n = (memAllocBlock m.frames).1 / 0x1000 := ⟨_, rfl⟩
  have hm : Paging.linkAt true a f i m = { m with
      phys := setEntry f i ⟨true, true, true, BitVec.ofNat 40 n, (m.phys f i).rest⟩ m.phys
      frames := (memAllocBlock m.frames).2
      log := .table a n (m.phys n) :: m.log } := by
    rw [hn]
    exact if_neg hpres
  have hg : Paging.linkAt true a f i g = { g with
      phys := setEntry f i ⟨true, true, true, BitVec.ofNat 40 n, (g.phys f i).rest⟩ g.phys
      frames := (memAllocBlock m.frames).2
      log := .table a n (g.phys n) :: g.log } := by
    rw [hn, ← V.frames]
    exact if_neg hpres'
  have hlogm : (Paging.linkAt true a f i m).log = .table a n (m.phys n) :: m.log := by rw [hm]
  have hlogg : (Paging.linkAt true a f i g).log = .table a n (g.phys n) :: g.log := by rw [hg]
  have hlast := (since_cons hlogm).2 rfl
  have hsince : Since L (Paging.linkAt true a f i m) (.table a n (m.phys n)) := by
    obtain ⟨new, hnew, he⟩ := hlast
    obtain ⟨new', hnew'⟩ := V.start.1
    exact ⟨new ++ new', by rw [hnew, ← hnew', List.append_assoc], List.mem_append_left _ he⟩
  have hnew : NewIn L M n := ⟨a, _, hsince.mono hbefore.log⟩
  have hn0 : n ≠ 0 := hne _ _ _ (hsince.mono hbefore.log)
  have hfree : m.frames.memoryMap.bit n = false :=
    (extends_linkAt.tables a n _ hlast).resolve_left hn0
  have hplace : s.place n = none := by
    cases hq : s.place n with
    | none => rfl
    | some q =>
      have := V.space.good.forest.marked n q hq
      rw [V.frames, hfree] at this
      cases this
  have hblank : g.phys n = fun _ => c := funext fun j => V.blank n hnew hplace j
  have hok : ∀ e ∈ (Paging.linkAt true a f i g).log, e.Ok := by
    rw [hg, hblank]
    intro e he
    rcases List.mem_cons.1 he with rfl | he
    · exact ⟨hn0, fun _ _ => hc⟩
    · exact V.ok e he
  obtain ⟨s', G', A, hadd⟩ := V.space.good.linkAt (T := fun _ => False) hp h2 hi hself hown hok
  have hcr3 : (Paging.linkAt true a f i g).cr3 = g.cr3 := linkAt_cr3
  have U' : UserSpace s' (Paging.linkAt true a f i g) :=
    ⟨G', by rw [hcr3]; exact V.space.current.after A, by rw [A.live]; exact V.space.live⟩
  have hchild : s'.place n = some (p.child i) := by
    refine G'.forest.table f p i n (A.le.place f p hp) h2 hi hself (next_some.2 ?_)
    rw [hg]
    dsimp only
    rw [setEntry_same]
    have hlt : n < 2 ^ 40 := by
      rcases allocBlock_spec m.frames with h0 | ⟨k, -, hlt, -, haddr, -⟩
      · exact absurd (by rw [hn, h0, Nat.zero_div]) hn0
      · rw [hn, haddr, Nat.mul_div_cancel _ (show 0 < memBlockSize by decide), ← V.frames] at *
        exact Nat.lt_of_lt_of_le hlt V.space.good.size
    exact ⟨rfl, (BitVec.toNat_ofNat _ _).trans (Nat.mod_eq_of_lt hlt)⟩
  -- the tables of before, and the new one
  have hcases : ∀ x q, s'.place x = some q → s.place x = some q ∨ q = p.child i ∧ x = n := by
    intro x q hq
    rcases hadd x q hq with hold | ⟨-, h1, h2⟩
    · exact .inl hold
    · exact .inr ⟨h1, by rw [h2, hn, V.frames]⟩
  have hframe : ∀ x, x ≠ f → (Paging.linkAt true a f i m).phys x = m.phys x ∧
      (Paging.linkAt true a f i g).phys x = g.phys x := fun x hx => by
    rw [hm, hg]
    exact ⟨setEntry_frame hx, setEntry_frame hx⟩
  have hnf : n ≠ f := fun h => by
    rw [h, hp] at hplace
    cases hplace
  have hsame : ∀ x j, SameLink (m.phys x j) (g.phys x j) →
      SameLink ((Paging.linkAt true a f i m).phys x j) ((Paging.linkAt true a f i g).phys x j) := by
    intro x j h
    by_cases hx : x = f ∧ j = i
    · obtain ⟨rfl, rfl⟩ := hx
      exact h.linkAt V.frames
    · rwa [linkAt_ne hx, linkAt_ne hx]
  have hmono : m.log <:+ (Paging.linkAt true a f i m).log := extends_linkAt.log
  have hmono' : g.log <:+ (Paging.linkAt true a f i g).log := extends_linkAt.log
  refine ⟨s', A.held, ⟨V.start.1.trans hmono, V.start.2.trans hmono'⟩, hbefore, U', by rw [hm, hg], ?_, hok,
    fun b x old he => ?_, fun hE x hx => ?_, fun x q hx hq j => ?_, fun x hx hq j => ?_,
    fun b x old he => ?_, fun x q hx hq => ?_, fun v hv hQ => ?_⟩
  · rw [linkAt_cr3, linkAt_cr3, V.cr3]
  · rcases he.cases V.start.2 hmono' with he | he
    · exact V.news b x old he
    · obtain ⟨-, rfl, rfl⟩ := Event.table.inj ((since_cons hlogg).1 he)
      exact ⟨hn0, hblank⟩
  · have hx' := V.data hE x hx
    by_cases hxf : x = f
    · subst hxf
      rw [hm, hg]
      dsimp only
      unfold setEntry
      rw [upd_same, upd_same, hx']
    · rw [(hframe x hxf).1, (hframe x hxf).2, hx']
  · rcases hcases x q hq with hq | ⟨-, rfl⟩
    · exact hsame x j (V.same x q hx hq j)
    · exact absurd hnew hx
  · have hq' : s.place x = none := by
      cases h : s.place x with
      | none => rfl
      | some q =>
        rw [A.le.place x q h] at hq
        cases hq
    rw [(hframe x fun h => by rw [h, hp] at hq'; cases hq').2]
    exact V.blank x hx hq' j
  · rcases he.cases V.start.1 hmono with he | he
    · obtain ⟨q, hq⟩ := V.linked b x old he
      exact ⟨q, A.le.place x q hq⟩
    · obtain ⟨-, rfl, -⟩ := Event.table.inj ((since_cons hlogm).1 he)
      exact ⟨_, hchild⟩
  · rcases hcases x q hq with hq | ⟨rfl, rfl⟩
    · obtain ⟨hlevel, old, he, hold⟩ := V.old x q hx hq
      refine ⟨hlevel, old, he.mono hmono, fun j => ?_⟩
      by_cases hxj : x = f ∧ j = i
      · obtain ⟨rfl, rfl⟩ := hxj
        refine ⟨?_, .inl (hsame _ _ heven)⟩
        rw [hm]
        dsimp only
        rw [setEntry_same]
        exact (hold j).1
      · rw [linkAt_ne hxj, linkAt_ne hxj]
        exact hold j
    · have h4 := (V.space.good.forest.level f p hp).2
      refine ⟨show p.level - 1 ≤ 3 by omega, m.phys x, ?_, fun j => ?_⟩
      · subst ha
        exact hsince
      · rw [(hframe x hnf).1, (hframe x hnf).2, hblank]
        exact ⟨rfl, .inr ⟨hc, rfl⟩⟩
  · obtain ⟨t, ht, hs⟩ := V.filled v hv hQ
    refine ⟨t, ?_, hsame _ _ hs⟩
    rw [linkAt_cr3]
    exact walk_mono linkAt_mono ht

/-- **The tables on the way to a page**, linked in both. -/
theorem Veil.linkPath (V : Veil E c L M Q s m g) (hc : c.present = false) (hclear : ClearTo L M P a)
    (ha : User a) (hbefore : Extends (linkPath true 4 0 m.cr3 a.path m) M)
    (hne : ∀ a f old, Since L M (.table a f old) → f ≠ 0) :
    ∃ s', (∀ n, s.held n → s'.held n) ∧ Veil E c L M Q s' (Paging.linkPath true 4 0 m.cr3 a.path m)
      (Paging.linkPath true 4 0 g.cr3 a.path g) := by
  -- `js` is the part of the path walked already
  have key : ∀ ks js l q f s m g, a.path = js ++ ks → ((Place.root g.cr3).along js).level = l →
      ((Place.root g.cr3).along js).region = q → Lib.walk (next g.phys) g.cr3 js = some f →
      Veil E c L M Q s m g → Extends (Paging.linkPath true l q f ks m) M →
      ∃ s', (∀ n, s.held n → s'.held n) ∧
        Veil E c L M Q s' (Paging.linkPath true l q f ks m) (Paging.linkPath true l q f ks g) := by
    intro ks
    induction ks with
    | nil => exact fun _ _ _ _ s _ _ _ _ _ _ V _ => ⟨s, fun _ h => h, V⟩
    | cons i ks ih =>
      intro js l q f s m g hpath hl hq hw V hbefore
      have hp := (V.space.good.walk_path V.space.current.place ha.lt.1 hpath hw).1
      have hlen := congrArg List.length hpath
      rw [List.length_append, List.length_cons, show a.path.length = 3 from rfl] at hlen
      have hlevel := (Place.root g.cr3).along_level js
      rw [show (Place.root g.cr3).level = 4 from rfl] at hlevel
      have hself : ¬ (((Place.root g.cr3).along js).level = 4 ∧ i = 511) := by
        rintro ⟨h4, rfl⟩
        obtain rfl : js = [] := List.length_eq_zero_iff.1 (by omega)
        exact ha.lt.1 (List.cons.inj hpath).1
      have hindices : a.indices = js ++ i :: (ks ++ [a.pt]) := by
        rw [indices_path, hpath, List.append_assoc, List.cons_append]
      have heven := V.even hclear ha hindices (fun h => by simp at h) hw
      obtain ⟨s1, hheld, V1⟩ := V.linkAt (a := tableEntry (l - 1) (q * 512 + i)) hc hp (by omega)
        (a.path_lt i (hpath ▸ by simp)) hself ((Place.root g.cr3).along_owner js) heven
        (by rw [hl, hq]) (extends_linkPath.trans hbefore) hne
      -- both lead on to the same table
      have hlinked : SameLink ((Paging.linkAt true (tableEntry (l - 1) (q * 512 + i)) f i m).phys f i)
          ((Paging.linkAt true (tableEntry (l - 1) (q * 512 + i)) f i g).phys f i) := heven.linkAt V.frames
      have htarget := hlinked.next
      rw [next_linkAt, next_linkAt] at htarget
      have htarget := Option.some.inj htarget
      rw [Paging.linkPath, Paging.linkPath] at *
      rw [htarget] at hbefore ⊢
      have hnext := ih (js ++ [i]) _ _ _ s1 _ _
        (by rw [hpath, List.append_assoc, List.singleton_append]) ?_ ?_ ?_ V1 hbefore
      · obtain ⟨s', hheld', V'⟩ := hnext
        exact ⟨s', fun n hn => hheld' n (hheld n hn), V'⟩
      · rw [linkAt_cr3, Place.along_snoc, ← hl]
        rfl
      · rw [linkAt_cr3, Place.along_snoc, ← hq]
        rfl
      · rw [linkAt_cr3, walk_snoc, walk_mono linkAt_mono hw, Option.bind_some, next_linkAt]
  have hcr3 := V.cr3
  rw [← hcr3] at hbefore ⊢
  exact key a.path [] 4 0 _ s m g rfl rfl rfl rfl V hbefore

/-! ## Mapping pages -/

/-- A frame for a page. -/
theorem Veil.alloc (V : Veil E c L M Q s m g) (h0 : (memAllocBlock m.frames).1 ≠ 0)
    (hbefore : Extends { m with frames := (memAllocBlock m.frames).2 } M) :
    ∃ n, (memAllocBlock m.frames).1 / 0x1000 = n ∧ n < 2 ^ 40 ∧
      Veil E c L M Q (s.hold n) { m with frames := (memAllocBlock m.frames).2 }
        { g with frames := (memAllocBlock g.frames).2 } := by
  rw [← V.frames] at h0
  rcases V.space.good.allocBlock with ⟨h, -⟩ | ⟨n, -, hlt, haddr, -, -, G⟩
  · exact absurd h h0
  refine ⟨n, ?_, hlt, V.start, hbefore, ⟨G, ⟨V.space.current.place,
    ⟨V.space.current.window.root, V.space.current.window.loop⟩, .inl rfl⟩, V.space.live⟩, ?_, V.cr3, V.ok,
    V.news, V.data, V.same, V.blank, V.linked, V.old, V.filled⟩
  · rw [← V.frames, haddr, Nat.mul_div_cancel _ (by decide)]
  · dsimp only
    rw [V.frames]

/-- **One page mapped**, in both. -/
theorem Veil.mapPage (V : Veil E c L M Q s m g) (hc : c.present = false) (hclear : ClearTo L M P a)
    (ha : User a) (h0 : (memAllocBlock m.frames).1 ≠ 0)
    (hrun : mapFrame a ((memAllocBlock m.frames).1 / 0x1000)
      { m with frames := (memAllocBlock m.frames).2 } = some m') (hbefore : Extends m' M)
    (hne : ∀ a f old, Since L M (.table a f old) → f ≠ 0) :
    ∃ s' g', mapFrame a ((memAllocBlock g.frames).1 / 0x1000)
        { g with frames := (memAllocBlock g.frames).2 } = some g' ∧
      Veil E c L M (fun q => Q q ∨ q = a.frame) s' m' g' := by
  obtain ⟨n, hn, hlt, V1⟩ := V.alloc h0 ((extends_mapFrame hrun).trans hbefore)
  rw [V.frames, hn]
  rw [hn] at hrun
  rw [V.frames] at V1
  generalize ({ m with frames := (memAllocBlock m.frames).2 } : Machine) = m1 at *
  generalize ({ g with frames := (memAllocBlock m.frames).2 } : Machine) = g1 at *
  have hbefore2 : Extends (Paging.linkPath true 4 0 m1.cr3 a.path m1) M := by
    obtain ⟨⟨p, m2⟩, hcreate, hw⟩ := Option.bind_eq_some_iff.1 hrun
    rw [createPage_eq V1.window] at hcreate
    cases hcreate
    exact (Extends.of_eq (writeFields_log hw) (writeFields_frames hw)).trans hbefore
  obtain ⟨s2, hheld2, V2⟩ := V1.linkPath hc hclear ha hbefore2 hne
  obtain ⟨t, ht⟩ := @walk_linkPath g1 4 0 g1.cr3 true a.path
  have hcr3 : (Paging.linkPath true 4 0 g1.cr3 a.path g1).cr3 = g1.cr3 := linkPath_cr3
  have hcr3m : (Paging.linkPath true 4 0 m1.cr3 a.path m1).cr3 = m1.cr3 := linkPath_cr3
  generalize hm2 : Paging.linkPath true 4 0 m1.cr3 a.path m1 = m2 at *
  generalize hg2 : Paging.linkPath true 4 0 g1.cr3 a.path g1 = g2 at *
  rw [← hcr3] at ht
  have htm : Lib.walk (next m2.phys) m2.cr3 a.path = some t :=
    (V2.walk hclear ha (List.append_nil _).symm).trans ht
  have hp := (V2.space.good.walk_path V2.space.current.place ha.lt.1 (List.append_nil _).symm ht).1
  have hp1 : ((Place.root g2.cr3).along a.path).level = 1 := by rw [along_path]
  -- the entry is not on the way to itself
  have hreads := V2.space.good.not_reads V2.space.current ha.lt.1 hp hp1
  have hreadsm : ¬ Reads (next m2.phys) m2.cr3 (entryAt currentPt a.frame).indices t a.pt := by
    refine fun hr => hreads ?_
    rw [(indices_pt a).1] at hr ⊢
    rw [← V2.cr3] at hr
    refine hr.congr fun u j hu => ?_
    have hloop := V2.space.current.window.loop
    rcases hu.cases with ⟨rfl, rfl⟩ | ⟨w, hw, js, ks, hjs, hw'⟩
    · rw [hloop, V2.cr3]
      exact V2.window.loop
    · obtain rfl := Option.some.inj (hw.symm.trans hloop)
      have hindices : a.indices = js ++ j :: (ks ++ [a.pt]) := by
        rw [indices_path, show a.path = js ++ j :: ks from hjs, List.append_assoc, List.cons_append]
      exact (V2.even hclear ha hindices (fun h => by simp at h) hw').next
  have hgrun := mapFrame_eq V1.space.current.window hg2.symm (by rw [← hcr3]; exact ht) hreads n
  have hmrun := mapFrame_eq V1.window hm2.symm (by rw [← hcr3m]; exact htm) hreadsm n
  rw [hmrun] at hrun
  cases hrun
  obtain ⟨phys, hphys, -, G3, A3, -⟩ := V2.space.good.fill V2.space.current (hheld2 n (.inl rfl))
    ha.lt.1 (pageEntry_spec hlt true) ht
  have A := A3 (fun _ => True) trivial
  have C := V2.space.current.after A
  have hentry : phys = setEntry t a.pt
      ⟨true, true, true, BitVec.ofNat 40 n, (g2.phys t a.pt).rest⟩ g2.phys := hphys
  subst hentry
  -- the entry is the same in both, the others are as they were
  have hsame : ∀ x j, SameLink (m2.phys x j) (g2.phys x j) ∨ x = t ∧ j = a.pt → SameLink
      (setEntry t a.pt ⟨true, true, true, BitVec.ofNat 40 n, (m2.phys t a.pt).rest⟩ m2.phys x j)
      (setEntry t a.pt ⟨true, true, true, BitVec.ofNat 40 n, (g2.phys t a.pt).rest⟩ g2.phys x j) := by
    intro x j h
    by_cases hx : x = t ∧ j = a.pt
    · obtain ⟨rfl, rfl⟩ := hx
      rw [setEntry_same, setEntry_same]
      exact ⟨rfl, fun _ => ⟨rfl, rfl, rfl⟩⟩
    · rw [setEntry_ne hx, setEntry_ne hx]
      exact h.resolve_right hx
  refine ⟨s2.drop n, _, hgrun, V2.start, hbefore, ⟨G3, ⟨C.place, C.window, .inl rfl⟩, V2.space.live⟩,
    V2.frames, V2.cr3, V2.ok, V2.news, fun hE x hx => ?_, fun x q hx hq j => hsame x j (.inl (V2.same x q hx hq j)),
    fun x hx hq j => ?_, V2.linked, fun x q hx hq => ?_, fun v hv hQ => ?_⟩
  · have hx' := V2.data hE x hx
    dsimp only
    by_cases hxt : x = t
    · subst hxt
      unfold setEntry
      rw [upd_same, upd_same, hx']
    · rw [setEntry_frame hxt, setEntry_frame hxt, hx']
  · have hxt : x ≠ t := fun h => by
      have hq : s2.place x = none := hq
      rw [h, hp] at hq
      cases hq
    exact (congrFun (setEntry_frame hxt) j).trans (V2.blank x hx hq j)
  · obtain ⟨hlevel, old, he, hold⟩ := V2.old x q hx hq
    refine ⟨hlevel, old, he, fun j => ?_⟩
    by_cases hxj : x = t ∧ j = a.pt
    · refine ⟨?_, .inl (hsame x j (.inr hxj))⟩
      obtain ⟨rfl, rfl⟩ := hxj
      dsimp only
      rw [setEntry_same]
      exact (hold _).1
    · dsimp only
      rw [setEntry_ne hxj, setEntry_ne hxj]
      exact hold j
  · have hwalk : ∀ {b : Addr} {f}, User b → Lib.walk (next g2.phys) g2.cr3 b.path = some f →
        Lib.walk (next (setEntry t a.pt ⟨true, true, true, BitVec.ofNat 40 n, (g2.phys t a.pt).rest⟩
          g2.phys)) g2.cr3 b.path = some f := fun hb hw =>
      (V2.space.good.walk_path V2.space.current.place hb.lt.1 (List.append_nil _).symm hw).2 _ _ A.keeps
    rcases hQ with hQ | hQ
    · obtain ⟨f, hf, hs⟩ := V2.filled v hv hQ
      exact ⟨f, hwalk hv hf, hsame f v.pt (.inl hs)⟩
    · have hind := hv.indices ha hQ
      rw [indices_path, indices_path] at hind
      obtain ⟨hpath, hpt⟩ := List.append_inj' hind rfl
      exact ⟨t, hwalk hv (hpath ▸ ht), hsame t v.pt (.inr ⟨rfl, (List.cons.inj hpt).1⟩)⟩

/-- **The loop of `alloc_page`**, in both. -/
theorem Veil.allocFrom {address : Nat → Addr} {k : Nat} (V : Veil E c L M Q s m g)
    (hc : c.present = false)
    (hpages : ∀ j, i ≤ j → j < i + k → User (address j) ∧ ∃ P, ClearTo L M P (address j))
    (hrun : allocFrom address true k i m = some (true, m')) (hbefore : Extends m' M)
    (hne : ∀ a f old, Since L M (.table a f old) → f ≠ 0) :
    ∃ s' g', Paging.allocFrom address true k i g = some (true, g') ∧
      Veil E c L M (fun q => Q q ∨ Touched address i k q) s' m' g' := by
  induction k generalizing i s m g Q with
  | zero =>
    cases hrun
    refine ⟨s, g, rfl, { V with filled := fun v hv hQ => V.filled v hv (hQ.resolve_right ?_) }⟩
    rintro ⟨j, h1, h2, -⟩
    omega
  | succ k ih =>
    have h0 : (memAllocBlock m.frames).1 ≠ 0 := fun h0 => by
      rw [Paging.allocFrom] at hrun
      rw [if_pos h0] at hrun
      cases hrun
    obtain ⟨hu, P, hclear⟩ := hpages i (Nat.le_refl _) (by omega)
    rw [allocFrom_succ h0] at hrun
    obtain ⟨m1, h1, hrun⟩ := Option.bind_eq_some_iff.1 hrun
    obtain ⟨s1, g1, hg1, V1⟩ := V.mapPage hc hclear hu h0 h1 ((extends_allocFrom hrun).trans hbefore) hne
    obtain ⟨s', g', hg', V'⟩ := ih V1 (fun j h1 h2 => hpages j (by omega) (by omega)) hrun
    refine ⟨s', g', ?_, { V' with filled := fun v hv hQ => V'.filled v hv ?_ }⟩
    · rw [allocFrom_succ (by rwa [V.frames]), hg1, Option.bind_some, hg']
    · rcases hQ with hQ | ⟨j, h1, h2, hq⟩
      · exact .inl (.inl hQ)
      · by_cases hj : j = i
        · exact .inl (.inr (hj ▸ hq))
        · exact .inr ⟨j, by omega, by omega, hq⟩

/-- **`alloc_page`**, in both. -/
theorem Veil.allocPage {virtual size : Nat} {v : Addr} (V : Veil E c L M Q s m g)
    (hc : c.present = false) (hsize : size ≠ 0) (hlow : PagesLow virtual size)
    (hpages : ∀ j, j < size → ∃ P, ClearTo L M P (add64 virtual (j * 0x1000)))
    (hrun : allocPage virtual size m = some (v, m')) (hv : v ≠ 0) (hbefore : Extends m' M)
    (hne : ∀ a f old, Since L M (.table a f old) → f ≠ 0) :
    ∃ s' g', Paging.allocPage virtual size g = some (v, g') ∧
      Veil E c L M (fun q => Q q ∨ virtual / 4096 ≤ q ∧ q < virtual / 4096 + size) s' m' g' := by
  obtain ⟨hfrom, rfl⟩ := allocPage_cases hsize hrun hv
  obtain ⟨s', g', hg', V'⟩ := V.allocFrom hc (fun j _ hj =>
    ⟨(hlow.address (by omega)).1, hpages j (by omega)⟩) hfrom hbefore hne
  refine ⟨s', g', ?_, { V' with filled := fun w hw hQ => V'.filled w hw ?_ }⟩
  · unfold Paging.allocPage
    dsimp only
    rw [if_neg hsize, hg', Option.map_some]
    rfl
  · exact hQ.imp_right (hlow.touched _).2

/-! ## Storing bytes -/

/-- **A byte stored**, in both. -/
theorem Veil.storeByte {b : UInt8} (V : Veil E c L M Q s m g) (hclear : ClearTo L M P v) (hv : User v)
    (hq : Q v.frame ∨ ¬ P) (hrun : storeByte v b m = some m') (hbefore : Extends m' M)
    (hne : ∀ a f old, Since L M (.table a f old) → f ≠ 0) :
    ∃ g', Paging.storeByte v b g = some g' ∧ Veil E c L M Q s m' g' := by
  obtain ⟨n, hn, rfl⟩ := storeByte_cases hrun
  have hn' := (V.translate hclear hv hq).symm.trans hn
  obtain ⟨hu, hp⟩ := V.space.page hv hn'
  have hrun' : Paging.storeByte v b g = some (setByteIn n v b g) := by
    rw [Paging.storeByte, modify, locate_some hn']
    rfl
  have hnew := V.not_newIn hu hp hne
  have hframe : ∀ f, f ≠ n → (setByteIn n v b m).phys f = m.phys f ∧
      (setByteIn n v b g).phys f = g.phys f := fun f hf => ⟨setEntry_frame hf, setEntry_frame hf⟩
  have htable : ∀ f q, s.place f = some q → f ≠ n := fun f q hq h => by
    rw [h, hp] at hq
    cases hq
  have hnewne : ∀ f, NewIn L M f → f ≠ n := fun f hf h => hnew (h ▸ hf)
  refine ⟨_, hrun', V.start, hbefore, V.space.scribble (setByteIn_phys hp), V.frames, V.cr3, V.ok, V.news,
    fun hE f hf => ?_, fun f q hf hq j => ?_, fun f hf hq j => ?_, V.linked, fun f q hf hq => ?_,
    fun w hw hQ => ?_⟩
  · have hf' := V.data hE f hf
    by_cases hfn : f = n
    · subst hfn
      unfold setByteIn setEntry
      dsimp only
      rw [upd_same, upd_same, hf']
    · rw [(hframe f hfn).1, (hframe f hfn).2, hf']
  · rw [(hframe f (htable f q hq)).1, (hframe f (htable f q hq)).2]
    exact V.same f q hf hq j
  · rw [(hframe f (hnewne f hf)).2]
    exact V.blank f hf hq j
  · rw [(hframe f (hnewne f hf)).1, (hframe f (hnewne f hf)).2]
    exact V.old f q hf hq
  · obtain ⟨t, ht, hs⟩ := V.filled w hw hQ
    have hpt := (V.space.good.walk_path V.space.current.place hw.lt.1 (List.append_nil _).symm ht).1
    refine ⟨t, ?_, by rwa [(hframe t (htable t _ hpt)).1, (hframe t (htable t _ hpt)).2]⟩
    refine (walk_congr fun f j hvisit => ?_).trans ht
    obtain ⟨js, ks, hjs, hw'⟩ := hvisit
    have hpf := (V.space.good.walk_path V.space.current.place hw.lt.1 hjs hw').1
    exact congrFun (next_congr (hframe f (htable f _ hpf)).2) j

/-- **`memcpy`**, in both. -/
theorem Veil.memcpy {dest size : Nat} {src : Nat → UInt8} (V : Veil E c L M Q s m g)
    (hbytes : ∀ j, j < copyLength size → dest + j < 0xC0000000 ∧ ∃ P, ClearTo L M P (dest + j) ∧
      (Q (Addr.frame (dest + j)) ∨ ¬ P))
    (hrun : memcpy dest src size m = some m') (hbefore : Extends m' M)
    (hne : ∀ a f old, Since L M (.table a f old) → f ≠ 0) :
    ∃ g', Paging.memcpy dest src size g = some g' ∧ Veil E c L M Q s m' g' := by
  have key : ∀ k i m g, i + k ≤ copyLength size → Veil E c L M Q s m g →
      loop (fun i => Paging.storeByte (add64 dest i) (src i)) k i m = some m' →
      ∃ g', loop (fun i => Paging.storeByte (add64 dest i) (src i)) k i g = some g' ∧
        Veil E c L M Q s m' g' := by
    intro k
    induction k with
    | zero =>
      intro i m g _ V hr
      cases hr
      exact ⟨g, rfl, V⟩
    | succ k ih =>
      intro i m g hk V hr
      obtain ⟨m1, h1, hr⟩ := Option.bind_eq_some_iff.1 hr
      obtain ⟨hlt, P, hclear, hq⟩ := hbytes i (by omega)
      obtain ⟨he, hv⟩ := user_add64 hlt
      have hafter : Extends m1 m' :=
        loop_related .refl (fun _ _ _ => .trans) (fun _ _ _ => extends_storeByte) hr
      rw [he] at hv
      have h1 : Paging.storeByte (dest + i) (src i) m = some m1 := he ▸ h1
      obtain ⟨g1, hg1, V1⟩ := V.storeByte hclear hv hq h1 (hafter.trans hbefore) hne
      obtain ⟨g', hg', V'⟩ := ih (i + 1) m1 g1 (by omega) V1 hr
      refine ⟨g', ?_, V'⟩
      rw [loop, show Paging.storeByte (add64 dest i) (src i) g = some g1 from he.symm ▸ hg1,
        Option.bind_some, hg']
  obtain ⟨g', hg', V'⟩ := key _ 0 m g (by omega) V (memcpy_loop hrun)
  refine ⟨g', ?_, V'⟩
  unfold Paging.memcpy at hrun ⊢
  unfold copyLength at hg'
  split at hrun
  · rename_i hlt
    rw [if_pos hlt] at hg' ⊢
    exact hg'
  · rename_i hge
    rw [if_neg hge] at hg' ⊢
    split at hrun
    · cases hrun
    · rename_i hneg
      rw [if_neg hneg]
      exact hg'

/-! ## The processor -/

theorem Entry.Goes.of_rest {n : Nat} {e e' : Entry} (h : e'.Goes n) (hr : e.rest = e'.rest) : e.Goes n := by
  unfold Entry.Goes Entry.nx Entry.mbz Entry.large at h ⊢
  rwa [hr]

/-- Where the history knows no reserved bits before, that of `g` knows none. -/
theorem Veil.plain (V : Veil E c L M Q s m g) (hL : ∀ e ∈ L, e.Plain) (hc : c.Plain) :
    ∀ e ∈ g.log, e.Plain := by
  intro e he
  obtain ⟨new, hnew⟩ := V.start.2
  rw [← hnew] at he
  rcases List.mem_append.1 he with he | he
  · cases e with
    | table a f old =>
      rw [(V.news a f old ⟨new, hnew.symm, he⟩).2]
      exact fun _ _ => hc
    | _ => trivial
  · exact hL e he

/-- **The processor's walk** to a page with no old entry in the way. -/
theorem Veil.hardware (V : Veil E c L M Q s m g) (hE : E) (hL : ∀ e ∈ L, e.Plain) (hc : c.Plain)
    (hclear : ClearTo L M P v) (hv : User v) :
    hardware m.phys m.cr3 v.indices = Paging.translate m.phys m.cr3 v := by
  refine hardware_goes fun js i ks f h hw => ?_
  obtain ⟨hi, l, hl⟩ := indices_prefix h
  have hw := (V.walk hclear hv hl).symm.trans hw
  have hp := V.place hv h hw
  by_cases hnew : NewIn L M f
  · obtain ⟨hlevel, old, he, hsame⟩ := V.old f _ hnew hp
    obtain ⟨h3, h2, h1⟩ := hclear _ (he.mono V.before.log)
    refine Entry.Goes.of_rest ?_ (hsame i).1
    rcases indices_split h with ⟨rfl, -⟩ | ⟨rfl, rfl, -⟩ | ⟨rfl, rfl, -⟩ | ⟨rfl, rfl, rfl⟩
    · exact absurd hlevel (show ¬ 4 ≤ 3 by decide)
    · obtain rfl : ks = [v.pd, v.pt] := (List.cons.inj (List.cons.inj h).2).2.symm
      exact (h3 (tableEntry_along _ v).1).2
    · obtain rfl : ks = [v.pt] := (List.cons.inj (List.cons.inj (List.cons.inj h).2).2).2.symm
      exact (h2 (tableEntry_along _ v).2.1).2
    · exact (h1 (tableEntry_along _ v).2.2).1
  · rw [← V.data hE f hnew]
    exact (V.space.good.plain (V.plain hL hc) f _ hp i hi).goes _

/-- What is in a page, where nothing but the new tables differs. -/
theorem Veil.loadByte (V : Veil E c L M Q s m g) (hE : E) (hclear : ClearTo L M P v) (hv : User v)
    (hq : Q v.frame ∨ ¬ P) (hne : ∀ a f old, Since L M (.table a f old) → f ≠ 0) :
    loadByte v m = loadByte v g := by
  have htr := V.translate hclear hv hq
  cases hx : Paging.translate g.phys g.cr3 v with
  | none => rw [loadByte_none hx, loadByte_none (htr.trans hx)]
  | some n =>
    obtain ⟨hu, hp⟩ := V.space.page hv hx
    rw [loadByte_eq hx, loadByte_eq (htr.trans hx), V.data hE n (V.not_newIn hu hp hne)]

end

end Paging
