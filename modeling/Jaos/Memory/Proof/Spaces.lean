import Jaos.Memory.Proof.Forest
import Jaos.Memory.Proof.Window
import Jaos.Memory.Proof.Frames

/-!
# Mapping pages in a forest of tables

`Good s m`: the tables of the machine form the forest `s`. The functions that map pages keep it, as
long as the frames they link as tables are real and hold no entries (`Event.Ok`):
`linkTable` (`Good.linkAt`), `create_page_for_current` (`Good.linkPath`), filling its entry
(`Good.mapPage`), the loop of `alloc_page` and `alloc_kernel_page` (`Good.allocFrom`), and these two
(`Good.allocPage`, `Good.allocKernelPage`). `After r T` says what they leave alone: every link between
tables, every mapping of a page outside `T`, the frames in hand and the tables of other spaces than
`r`. `Current` is the space whose
tables the window shows, `IsSpace` the root of any address space.
-/

namespace Paging

open Lib Memman

/-- The entries of the tables are plain if the old ones were. -/
def PlainTables (s : Shape) (log : List Event) (phys : Phys) : Prop :=
  (∀ e ∈ log, e.Plain) → ∀ f p, s.place f = some p → ∀ i, i < 512 → (phys f i).Plain

/-- The tables form the forest `s`, and frame numbers fit the entries. -/
structure Good (s : Shape) (m : Machine) : Prop where
  forest : Forest s (next m.phys) m.frames.memoryMap.bit
  linked : Linked s (next m.phys)
  size : m.frames.maxBlocks ≤ 2 ^ 40
  plain : PlainTables s m.log m.phys

/-- The frame `f` is a table of another space than `r`. -/
def Shape.Other (s : Shape) (r f : Nat) : Prop :=
  ∃ p, s.place f = some p ∧ p.owner ≠ none ∧ p.owner ≠ some r

/-- What the functions that map the pages of `T` in the space `r` leave alone. -/
structure After (r : Nat) (T : Nat → Prop) (s : Shape) (m : Machine) (s' : Shape) (m' : Machine) :
    Prop where
  le : s.Le s'
  keeps : Keeps s T (next m.phys) (next m'.phys)
  held : ∀ n, s.held n → s'.held n
  hands : ∀ n, s.held n → m'.phys n = m.phys n
  live : s'.live = s.live
  cr3 : m'.cr3 = m.cr3
  log : m.log <:+ m'.log
  blocks : blocks m'.log = blocks m.log
  roots : ∀ k, s'.place k = some (.root k) → s.place k = some (.root k)
  other : ∀ f, s.Other r f → m'.phys f = m.phys f

theorem Shape.Other.le {s s' : Shape} {r f : Nat} (h : s.Other r f) (hle : s.Le s') :
    s'.Other r f := by
  obtain ⟨p, hp, h⟩ := h
  exact ⟨p, hle.place f p hp, h⟩

namespace After

variable {r : Nat} {T T' : Nat → Prop} {s s' s'' : Shape} {m m' m'' : Machine}

theorem refl (r : Nat) (T : Nat → Prop) (s : Shape) (m : Machine) : After r T s m s m :=
  ⟨.refl s, .refl s T _, fun _ h => h, fun _ _ => rfl, rfl, rfl, List.suffix_rfl, rfl, fun _ h => h,
    fun _ _ => rfl⟩

theorem trans (h : After r T s m s' m') (h' : After r T s' m' s'' m'') : After r T s m s'' m'' :=
  ⟨h.le.trans h'.le, h.keeps.trans h.le h'.keeps, fun n hn => h'.held n (h.held n hn),
    fun n hn => (h'.hands n (h.held n hn)).trans (h.hands n hn), h'.live.trans h.live,
    h'.cr3.trans h.cr3, h.log.trans h'.log, h'.blocks.trans h.blocks,
    fun k hk => h.roots k (h'.roots k hk), fun f hf => (h'.other f (hf.le h.le)).trans (h.other f hf)⟩

theorem mono (h : After r T s m s' m') (hT : ∀ q, T q → T' q) : After r T' s m s' m' :=
  ⟨h.le, h.keeps.mono hT, h.held, h.hands, h.live, h.cr3, h.log, h.blocks, h.roots, h.other⟩

end After

/-- An address space with the root `r`: it contains itself, and entry 3 of its first level-3 table
leads to the table `kpd` that all spaces share. -/
structure IsSpace (kpd : Nat) (s : Shape) (m : Machine) (r : Nat) : Prop where
  place : s.place r = some (.root r)
  self : next m.phys r 511 = some r
  low : ∃ d, next m.phys r 0 = some d ∧ next m.phys d 3 = some kpd

/-- The window shows the tables below `r`: those in `cr3`, or, while the first tables are built,
those that the loader's table leads to. -/
structure Current (s : Shape) (m : Machine) (r : Nat) : Prop where
  place : s.place r = some (.root r)
  window : Window m r
  cr3 : m.cr3 = r ∨ s.held m.cr3

section
variable {T : Nat → Prop} {s s' : Shape} {m m' : Machine} {kpd r f i : Nat} {a : Addr}

theorem IsSpace.current (h : IsSpace kpd s m m.cr3) : Current s m m.cr3 :=
  ⟨h.place, ⟨h.self, h.self⟩, .inl rfl⟩

theorem Current.after (h : Current s m r) (A : After r T s m s' m') : Current s' m' r := by
  have hloop := A.keeps r _ 511 r h.place (.inl (show 2 ≤ 4 by decide)) h.window.loop
  refine ⟨A.le.place r _ h.place, ⟨?_, hloop⟩, ?_⟩
  · rw [A.cr3]
    rcases h.cr3 with hc | hc
    · rwa [hc]
    · have := h.window.root
      unfold next at this ⊢
      rwa [A.hands _ hc]
  · rw [A.cr3]
    exact h.cr3.imp id (A.held _)

theorem IsSpace.after (h : IsSpace kpd s m r) (G : Good s m) (hle : s.Le s')
    (hk : Keeps s T (next m.phys) (next m'.phys)) : IsSpace kpd s' m' r := by
  obtain ⟨d, hd, h3⟩ := h.low
  have h2 : 2 ≤ (Place.root r).level := show 2 ≤ 4 by decide
  have hplace := G.forest.table r _ 0 d h.place h2 (by decide) (fun h => by cases h.2) hd
  exact ⟨hle.place r _ h.place, hk r _ 511 r h.place (.inl h2) h.self,
    d, hk r _ 0 d h.place (.inl h2) hd, hk d _ 3 kpd hplace (.inl (show 2 ≤ 3 by decide)) h3⟩

/-! ## Plain entries -/

section
variable {log log' : List Event} {phys phys' : Phys}

/-- The tables stay, and so do the bits. -/
theorem PlainTables.keep (h : PlainTables s log phys) (hlog : log <:+ log')
    (hphys : ∀ f p, s.place f = some p → ∀ i, (phys f i).Plain → (phys' f i).Plain) :
    PlainTables s log' phys' :=
  fun hall f p hp i hi => hphys f p hp i (h (fun e he => hall e (hlog.subset he)) f p hp i hi)

/-- One entry is written. -/
theorem PlainTables.set {e : Entry} (h : PlainTables s log phys)
    (he : (∀ e ∈ log, e.Plain) → (phys f i).Plain → e.Plain) :
    PlainTables s log (setEntry f i e phys) := by
  intro hall
  have hkeep : ∀ x p, s.place x = some p → ∀ j, (phys x j).Plain → (setEntry f i e phys x j).Plain := by
    intro x p _ j hj
    by_cases hx : x = f ∧ j = i
    · obtain ⟨rfl, rfl⟩ := hx
      rw [setEntry_same]
      exact he hall hj
    · rwa [setEntry_ne hx]
  exact h.keep List.suffix_rfl hkeep hall

/-- A new table. -/
theorem PlainTables.adopt {n : Nat} {p : Place} (h : PlainTables s log phys)
    (hn : (∀ e ∈ log, e.Plain) → ∀ i, i < 512 → (phys n i).Plain) :
    PlainTables (s.adopt n p) log phys := by
  intro hall x q hq i hi
  by_cases hx : x = n
  · subst hx
    exact hn hall i hi
  · rw [Shape.adopt_ne hx] at hq
    exact h hall x q hq i hi

theorem Entry.plain_zero : Entry.zero.Plain := by decide

/-- The three bits are among those that no assignment to a field changes. -/
theorem Entry.plain_of_rest {e e' : Entry} (h : e'.rest = e.rest) (he : e.Plain) : e'.Plain := by
  unfold Entry.Plain Entry.large Entry.mbz Entry.nx at he ⊢
  rwa [h]

end

/-! ## The way to a page -/

/-- The place of the table of level 1 on the way to `a`. -/
theorem along_path (r : Nat) (a : Addr) : (Place.root r).along a.path =
    ⟨1, if a.pml4 * 512 + a.pdp = 3 then none else some r, (a.pml4 * 512 + a.pdp) * 512 + a.pd⟩ := by
  simp [Place.along, Addr.path, Place.root, Place.child, Place.sub]

theorem sub_path (r : Nat) (a : Addr) : ((Place.root r).along a.path).sub a.pt = a.frame := by
  rw [along_path, Place.sub]
  dsimp only
  unfold Addr.pml4 Addr.pdp Addr.pd Addr.pt Addr.frame
  omega

/-- The tables on the way to a page outside the window. -/
theorem Good.walk_path (G : Good s m) (hr : s.place r = some (.root r)) (ha : a.pml4 ≠ 511)
    {js ks : List Nat} (hjs : a.path = js ++ ks) {t : Nat} (hw : walk (next m.phys) r js = some t) :
    s.place t = some ((Place.root r).along js) ∧
      ∀ E' T, Keeps s T (next m.phys) E' → walk E' r js = some t := by
  have hlt := a.path_lt
  have hlen := congrArg List.length hjs
  rw [List.length_append, show a.path.length = 3 from rfl] at hlen
  refine G.forest.walk_place hr (by show js.length < 4; omega)
    (fun i hi => hlt i (hjs ▸ List.mem_append_left _ hi)) (fun _ hhead => ?_) hw
  cases js with
  | nil => cases hhead
  | cons i js =>
    have h1 : a.pml4 = i := (List.cons.inj hjs).1
    have h2 : i = 511 := Option.some.inj hhead
    exact ha (h1.trans h2)

/-- **A mapping that is kept.** -/
theorem Good.kept (G : Good s m) (hr : s.place r = some (.root r)) (ha : a.pml4 ≠ 511)
    (hk : Keeps s T (next m.phys) (next m'.phys)) (hT : ¬ T a.frame) {n : Nat}
    (h : translate m.phys r a = some n) : translate m'.phys r a = some n := by
  obtain ⟨t, ht, hn⟩ := Option.bind_eq_some_iff.1 ((@walk_snoc _ _ _ _ _ a.path).symm.trans h)
  obtain ⟨hp, hwalk⟩ := G.walk_path hr ha (List.append_nil _).symm ht
  have hlast := hk t _ a.pt n hp (.inr ⟨by rw [along_path], by rwa [sub_path]⟩) hn
  exact (@walk_snoc _ _ _ _ _ a.path).trans (by rw [hwalk _ _ hk, Option.bind_some, hlast])

/-! ## New tables -/

/-- `mem_alloc_block` finds no frame, or marks one that is in hand then. -/
theorem Good.allocBlock (G : Good s m) :
    (memAllocBlock m.frames).1 = 0 ∧ (memAllocBlock m.frames).2 = m.frames ∨
      ∃ n, n ≠ 0 ∧ n < 2 ^ 40 ∧ (memAllocBlock m.frames).1 = n * 0x1000 ∧
        s.place n = none ∧ ¬ s.held n ∧
        Good (s.hold n) { m with frames := (memAllocBlock m.frames).2 } := by
  rcases allocBlock_spec m.frames with h0 | ⟨n, hn, hlt, hbit, haddr, hmax, hmap⟩
  · exact .inl ⟨by rw [h0], by rw [h0]⟩
  · refine .inr ⟨n, hn, Nat.lt_of_lt_of_le hlt G.size, haddr, ?_, fun h => ?_,
      G.forest.alloc hbit hmap, G.linked, ?_, G.plain⟩
    · cases hp : s.place n with
      | none => rfl
      | some p =>
        have := G.forest.marked n p hp
        rw [hbit] at this
        cases this
    · have := (G.forest.held n h).1
      rw [hbit] at this
      cases this
    · dsimp only
      rw [hmax]
      exact G.size

theorem linkAt_log {user : Bool} : m.log <:+ (linkAt user a f i m).log := by
  unfold linkAt
  split
  · exact List.suffix_rfl
  · exact List.suffix_cons _ _

/-- **A link keeps the forest**: the new table leads nowhere and takes its place. -/
theorem Good.linkAt {user : Bool} {p : Place} (G : Good s m) (hp : s.place f = some p)
    (h2 : 2 ≤ p.level) (hi512 : i < 512) (hi : ¬ (p.level = 4 ∧ i = 511))
    (hown : p.owner = some r ∨ p.owner = none) (hlog : ∀ e ∈ (linkAt user a f i m).log, e.Ok) :
    ∃ s', Good s' (Paging.linkAt user a f i m) ∧ After r T s m s' (Paging.linkAt user a f i m) ∧
      ∀ x q, s'.place x = some q → s.place x = some q ∨ (m.phys f i).present = false ∧
        q = p.child i ∧ x = (memAllocBlock m.frames).1 / 0x1000 := by
  by_cases hpres : (m.phys f i).present
  · rw [Paging.linkAt, if_pos hpres]
    exact ⟨s, G, .refl r T s m, fun _ _ h => .inl h⟩
  have hmono := @linkAt_mono m a user f i
  rw [Paging.linkAt, if_neg hpres] at hlog hmono ⊢
  obtain ⟨hne, hclean⟩ := hlog _ List.mem_cons_self
  rcases G.allocBlock with ⟨h0, -⟩ | ⟨n, -, hlt, haddr, hfree, hnheld, G'⟩
  · rw [h0] at hne
    exact absurd (Nat.zero_div _) hne
  have hdiv : (memAllocBlock m.frames).1 / 0x1000 = n := by
    rw [haddr]
    exact Nat.mul_div_cancel _ (by decide)
  rw [hdiv] at hclean hmono ⊢
  have hlevel := G.forest.level f p hp
  have hnf : n ≠ f := by
    rintro rfl
    rw [hfree] at hp
    cases hp
  have hclean' : ∀ j, j < 512 → next m.phys n j = none := fun j hj => next_none.2 (hclean j hj)
  have hadopt := G'.forest.adopt (p := p.child i) (.inl rfl) hclean'
    (by show 1 ≤ p.level - 1 ∧ p.level - 1 ≤ 4; omega)
    (fun h => by have h : p.level - 1 = 4 := h; omega)
  have hpf : ((s.hold n).adopt n (p.child i)).place f = some p := by
    rw [Shape.adopt_ne (Ne.symm hnf)]
    exact hp
  have hedge : next (setEntry f i ⟨true, true, user, BitVec.ofNat 40 n, (m.phys f i).rest⟩ m.phys)
      f i = some n := by
    refine next_some.2 ⟨by rw [setEntry_same], ?_⟩
    rw [setEntry_same, BitVec.toNat_ofNat, Nat.mod_eq_of_lt hlt]
  have hle : s.Le ((s.hold n).adopt n (p.child i)) := (Shape.Le.hold s n).trans (.adopt hfree)
  have hkeep : Keeps s T (next m.phys) (next (setEntry f i
      ⟨true, true, user, BitVec.ofNat 40 n, (m.phys f i).rest⟩ m.phys)) :=
    fun x q j k _ _ hk => hmono x j k hk
  refine ⟨(s.hold n).adopt n (p.child i), ⟨hadopt.edge hpf h2 hi Shape.adopt_same hedge
    fun x j h => next_setEntry_ne h, G.linked.keep hle hkeep fun x q hq hnone _ => ?_, G'.size, ?_⟩,
    ⟨hle, hkeep, fun k hk => ⟨fun he => hnheld (he ▸ hk), .inr hk⟩, fun k hk => ?_, rfl, rfl,
    List.suffix_cons _ _, rfl, fun k hk => ?_, fun k hk => setEntry_frame ?_⟩, fun x q hq => ?_⟩
  · -- the only new table is `n`
    by_cases hx : x = n
    · subst hx
      rw [Shape.adopt_same] at hq
      exact ⟨f, p, i, hpf, h2, hi512, hi, (Option.some.inj hq).symm, hedge⟩
    · rw [Shape.adopt_ne hx] at hq
      exact absurd (hnone.symm.trans hq) (by simp)
  · -- what the new table held is in the history
    refine PlainTables.set (PlainTables.adopt (G'.plain.keep (List.suffix_cons _ _) fun _ _ _ _ h => h)
      fun hall j hj => ?_) fun _ => id
    exact hall (.table a n (m.phys n)) List.mem_cons_self j hj
  · exact setEntry_frame (G.forest.held_ne hk hp)
  · by_cases hx : k = n
    · subst hx
      rw [Shape.adopt_same] at hk
      have h4 : p.level - 1 = 4 := congrArg Place.level (Option.some.inj hk)
      omega
    · rwa [Shape.adopt_ne hx] at hk
  · rintro rfl
    obtain ⟨q, hq, h1, h2⟩ := hk
    rw [hp] at hq
    cases hq
    exact hown.elim h2 h1
  · by_cases hx : x = n
    · subst hx
      rw [Shape.adopt_same] at hq
      exact .inr ⟨Bool.eq_false_iff.2 hpres, (Option.some.inj hq).symm, rfl⟩
    · rw [Shape.adopt_ne hx] at hq
      exact .inl hq

/-- `create_page_for_current` links along the path. -/
theorem Good.linkPath {user : Bool} (G : Good s m) (hr : s.place r = some (.root r))
    (ha : a.pml4 ≠ 511) (hlog : ∀ e ∈ (linkPath user 4 0 r a.path m).log, e.Ok) :
    ∃ s', Good s' (Paging.linkPath user 4 0 r a.path m) ∧
      After r T s m s' (Paging.linkPath user 4 0 r a.path m) := by
  revert hlog
  refine linkPath_rule
    (P := fun m' => (∀ e ∈ m'.log, e.Ok) → ∃ s', Good s' m' ∧ After r T s m s' m')
    (fun _ => ⟨s, G, .refl r T s m⟩) fun m' js i g _ hpre hw ih hlog => ?_
  obtain ⟨s', G', A'⟩ := ih fun e he => hlog e (linkAt_log.subset he)
  obtain ⟨ks, hks⟩ := hpre
  rw [List.append_assoc, List.singleton_append] at hks
  have hplace := (G'.walk_path (A'.le.place r _ hr) ha hks.symm hw).1
  have hlen := congrArg List.length hks
  rw [List.length_append, List.length_cons, show a.path.length = 3 from rfl] at hlen
  have hlevel := (Place.root r).along_level js
  rw [show (Place.root r).level = 4 from rfl] at hlevel
  have hi : i < 512 := a.path_lt i (hks ▸ by simp)
  have hself : ¬ (((Place.root r).along js).level = 4 ∧ i = 511) := by
    rintro ⟨h4, rfl⟩
    obtain rfl : js = [] := List.length_eq_zero_iff.1 (by omega)
    exact ha (List.cons.inj hks).1.symm
  obtain ⟨s'', G'', A'', -⟩ := G'.linkAt (T := T) hplace (by omega) hi hself
    ((Place.root r).along_owner js) hlog
  exact ⟨s'', G'', A'.trans A''⟩

/-! ## Filling the entry -/

/-- The walk to an entry of level 1 in the window does not look at tables of level 1. -/
theorem Good.not_reads (G : Good s m) (h : Current s m r) (ha : a.pml4 ≠ 511) {t : Nat}
    {p : Place} (hp : s.place t = some p) (h1 : p.level = 1) :
    ¬ Reads (next m.phys) m.cr3 (entryAt currentPt a.frame).indices t a.pt := by
  rw [(indices_pt a).1]
  rintro ⟨js, ks, hjs, hw⟩
  cases js with
  | nil =>
    cases hw
    rcases h.cr3 with hc | hc
    · rw [hc, h.place] at hp
      cases hp
      cases h1
    · exact G.forest.held_ne hc hp rfl
  | cons x js =>
    obtain rfl : 511 = x := (List.cons.inj hjs).1
    have hpath : a.path = js ++ a.pt :: ks := (List.cons.inj hjs).2
    rw [walk_cons h.window.root] at hw
    have hplace := (G.walk_path h.place ha hpath hw).1
    rw [hp] at hplace
    have hlevel := (Place.root r).along_level js
    rw [← Option.some.inj hplace, h1, show (Place.root r).level = 4 from rfl] at hlevel
    have hlen := congrArg List.length hpath
    rw [List.length_append, List.length_cons, show a.path.length = 3 from rfl] at hlen
    omega

theorem writeFields_log {gs : List (Entry → Entry)} (h : writeFields a gs m = some m') :
    m'.log = m.log := by
  induction gs generalizing m with
  | nil =>
    cases h
    rfl
  | cons g gs ih =>
    obtain ⟨m1, h1, h⟩ := Option.bind_eq_some_iff.1 h
    obtain ⟨l, -, hl⟩ := Option.map_eq_some_iff.1 h1
    rw [ih h, ← hl]

theorem linkTable_log {user : Bool} (h : linkTable a user m = some m') : m.log <:+ m'.log := by
  obtain ⟨x, -, h⟩ := Option.bind_eq_some_iff.1 h
  split at h
  · cases h
    exact List.suffix_rfl
  · rw [writeFields_log h]
    exact List.suffix_cons _ _

theorem createPage_log {user : Bool} {p : Addr} (h : createPageForCurrent a user m = some (p, m')) :
    m.log <:+ m'.log := by
  obtain ⟨m1, h1, h⟩ := Option.bind_eq_some_iff.1 h
  obtain ⟨m2, h2, h⟩ := Option.bind_eq_some_iff.1 h
  obtain ⟨m3, h3, h⟩ := Option.map_eq_some_iff.1 h
  cases h
  exact (linkTable_log h1).trans ((linkTable_log h2).trans (linkTable_log h3))

/-- **The entry of a page filled**, where its table is there. The frame was in hand. -/
theorem Good.fill {gs : List (Entry → Entry)} {n t : Nat} (G : Good s m) (h : Current s m r)
    (hn : s.held n) (ha : a.pml4 ≠ 511)
    (hgs : ∀ e : Entry, (gs.foldl (fun e g => g e) e).present = true ∧
      (gs.foldl (fun e g => g e) e).frame.toNat = n ∧ (gs.foldl (fun e g => g e) e).rest = e.rest)
    (ht : walk (next m.phys) r a.path = some t) :
    ∃ phys, phys = setEntry t a.pt (gs.foldl (fun e g => g e) (m.phys t a.pt)) m.phys ∧
      writeFields (entryAt currentPt a.frame) gs m = some { m with phys } ∧
      Good (s.drop n) { m with phys } ∧
      (∀ T, T a.frame → After r T s m s { m with phys }) ∧ translate phys r a = some n := by
  have hl := locate_pt h.window a
  rw [ht, Option.map_some] at hl
  obtain ⟨hplace, hwalk⟩ := G.walk_path h.place ha (List.append_nil _).symm ht
  have hlevel : ((Place.root r).along a.path).level = 1 := by rw [along_path]
  obtain ⟨hpres, hframe, hrest⟩ := hgs (m.phys t a.pt)
  generalize hentry : gs.foldl (fun e g => g e) (m.phys t a.pt) = entry at hpres hframe hrest
  have hnext : next (setEntry t a.pt entry m.phys) t a.pt = some n :=
    next_some.2 ⟨by rw [setEntry_same, hpres], by rw [setEntry_same, hframe]⟩
  have hkeep : ∀ T, T a.frame → Keeps s T (next m.phys) (next (setEntry t a.pt entry m.phys)) :=
    fun T hT => .page hplace hlevel (by rwa [sub_path]) fun x j h => next_setEntry_ne h
  refine ⟨_, rfl, ?_, ?_, fun T hT => ?_, ?_⟩
  · rw [writeFields_eq hl (G.not_reads h ha hplace hlevel), hentry]
  · refine ⟨G.forest.map hplace hlevel hn hnext fun x j h => next_setEntry_ne h,
      G.linked.keep ⟨fun _ _ h => h, rfl⟩ (hkeep _ (rfl : a.frame = a.frame))
        fun f p hp hnone _ => ?_, G.size, PlainTables.set G.plain fun _ => Entry.plain_of_rest hrest⟩
    exact absurd (hnone.symm.trans hp) (by simp)
  · refine ⟨.refl s, hkeep T hT, fun _ hk => hk,
      fun k hk => setEntry_frame (G.forest.held_ne hk hplace), rfl, rfl, List.suffix_rfl, rfl,
      fun _ h => h, fun k hk => setEntry_frame ?_⟩
    rintro rfl
    obtain ⟨q, hq, h1, h2⟩ := hk
    rw [hplace] at hq
    cases hq
    exact ((Place.root r).along_owner a.path).elim h2 h1
  · exact (@walk_snoc _ _ _ _ _ a.path).trans
      (by rw [hwalk _ _ (hkeep _ (rfl : a.frame = a.frame)), Option.bind_some, hnext])

/-- **One page mapped**: the missing tables are linked and the entry filled. The frame was in
hand. -/
theorem Good.mapPage {user : Bool} {gs : List (Entry → Entry)} {n : Nat} {p : Addr}
    {m1 m2 : Machine} (G : Good s m) (h : Current s m r) (hn : s.held n)
    (ha : a.pml4 ≠ 511) (hT : T a.frame)
    (hgs : ∀ e : Entry, (gs.foldl (fun e g => g e) e).present = true ∧
      (gs.foldl (fun e g => g e) e).frame.toNat = n ∧ (gs.foldl (fun e g => g e) e).rest = e.rest)
    (hc : createPageForCurrent a user m = some (p, m1)) (hw : writeFields p gs m1 = some m2)
    (hlog : ∀ e ∈ m2.log, e.Ok) :
    ∃ s', Good (s'.drop n) m2 ∧ After r T s m s' m2 ∧ m2.nextBlock = m.nextBlock ∧
      translate m2.phys r a = some n := by
  rw [createPage_eq h.window a user] at hc
  obtain ⟨rfl, rfl⟩ := Prod.mk.inj (Option.some.inj hc)
  rw [writeFields_log hw] at hlog
  obtain ⟨s1, G1, A1⟩ := G.linkPath (T := T) h.place ha hlog
  have hnb : (Paging.linkPath user 4 0 r a.path m).nextBlock = m.nextBlock := linkPath_nextBlock
  obtain ⟨t, ht⟩ := @walk_linkPath m 4 0 r user a.path
  have h1 := h.after A1
  generalize Paging.linkPath user 4 0 r a.path m = m1 at *
  obtain ⟨phys, -, hfill, G2, A2, htr⟩ := G1.fill h1 (A1.held n hn) ha hgs ht
  rw [hfill] at hw
  cases hw
  exact ⟨s1, G2, A1.trans (A2 T hT), hnb, htr⟩

/-! ## The loop of `alloc_page` and `alloc_kernel_page` -/

/-- The pages that `k` rounds from `i` on map. -/
def Touched (address : Nat → Addr) (i k q : Nat) : Prop :=
  ∃ j, i ≤ j ∧ j < i + k ∧ q = (address j).frame

/-- A frame taken, and given to a page. -/
theorem After.mapped {n : Nat} {f : Frames} (hn : ¬ s.held n)
    (h : After r T (s.hold n) { m with frames := f } s' m') : After r T s m (s'.drop n) m' :=
  ⟨⟨h.le.place, h.le.backed⟩, h.keeps, fun _ hk => ⟨fun he => hn (he ▸ hk), h.held _ (.inr hk)⟩,
    fun k hk => h.hands k (.inr hk), h.live, h.cr3, h.log, h.blocks, h.roots, h.other⟩

theorem allocFrom_log {address : Nat → Addr} {user ok : Bool} {k : Nat}
    (hrun : allocFrom address user k i m = some (ok, m')) : m.log <:+ m'.log := by
  induction k generalizing i m with
  | zero =>
    cases hrun
    exact List.suffix_rfl
  | succ k ih =>
    unfold Paging.allocFrom at hrun
    dsimp only at hrun
    split at hrun
    · cases hrun
      exact List.suffix_rfl
    · obtain ⟨⟨p, m2⟩, hc, hrun⟩ := Option.bind_eq_some_iff.1 hrun
      obtain ⟨m3, hw, hrun⟩ := Option.bind_eq_some_iff.1 hrun
      have hlog := createPage_log hc
      rw [← writeFields_log hw] at hlog
      exact hlog.trans (ih hrun)

/-- **The loop keeps the forest** and maps every page it gets to. -/
theorem Good.allocFrom {address : Nat → Addr} {user ok : Bool} {k : Nat} (G : Good s m)
    (h : Current s m r) (ha : ∀ j, i ≤ j → j < i + k → (address j).pml4 ≠ 511)
    (hrun : allocFrom address user k i m = some (ok, m')) (hlog : ∀ e ∈ m'.log, e.Ok) :
    ∃ s', Good s' m' ∧ After r (Touched address i k) s m s' m' ∧ m'.nextBlock = m.nextBlock ∧
      (ok = true →
        (∀ j j', i ≤ j → j < j' → j' < i + k → (address j).frame ≠ (address j').frame) →
        ∀ j, i ≤ j → j < i + k → ∃ n, translate m'.phys r (address j) = some n) := by
  induction k generalizing i s m with
  | zero =>
    cases hrun
    exact ⟨s, G, .refl r _ s _, rfl, fun _ _ j h1 h2 => by omega⟩
  | succ k ih =>
    unfold Paging.allocFrom at hrun
    dsimp only at hrun
    rcases G.allocBlock with ⟨h0, hf⟩ | ⟨n, hn0, hn, haddr, -, hheld, G1⟩
    · rw [if_pos h0, hf] at hrun
      cases hrun
      exact ⟨s, G, .refl r _ s m, rfl, fun h => by cases h⟩
    · rw [if_neg (by rw [haddr]; omega)] at hrun
      obtain ⟨⟨p, m2⟩, hc, hrun⟩ := Option.bind_eq_some_iff.1 hrun
      obtain ⟨m3, hw, hrun⟩ := Option.bind_eq_some_iff.1 hrun
      have hlog3 : ∀ e ∈ m3.log, e.Ok := fun e he => hlog e ((allocFrom_log hrun).subset he)
      have hgs : ∀ e : Entry, ([Entry.setPresent true, .setUser user, .setRw true,
          .setFrame ((memAllocBlock m.frames).1 / 0x1000)].foldl (fun e g => g e) e).present = true ∧
          ([Entry.setPresent true, .setUser user, .setRw true,
            .setFrame ((memAllocBlock m.frames).1 / 0x1000)].foldl (fun e g => g e) e).frame.toNat = n ∧
          ([Entry.setPresent true, .setUser user, .setRw true,
            .setFrame ((memAllocBlock m.frames).1 / 0x1000)].foldl (fun e g => g e) e).rest = e.rest := by
        intro e
        refine ⟨rfl, ?_, rfl⟩
        show (BitVec.ofNat 40 _).toNat = n
        rw [haddr, Nat.mul_div_cancel _ (by decide), BitVec.toNat_ofNat, Nat.mod_eq_of_lt hn]
      obtain ⟨s1, G3, A, hnb, htr⟩ := G1.mapPage (T := fun q => q = (address i).frame)
        ⟨h.place, ⟨h.window.root, h.window.loop⟩, h.cr3.imp id .inr⟩ (.inl rfl) (ha i (Nat.le_refl _) (by omega)) rfl hgs hc hw hlog3
      have A3 := A.mapped hheld
      have h3 : Current (s1.drop n) m3 r := h.after A3
      obtain ⟨s', G', A', hnb', hall⟩ := ih G3 h3 (fun j h1 h2 => ha j (by omega) (by omega)) hrun
      have hT1 : ∀ q, q = (address i).frame → Touched address i (k + 1) q := fun q hq =>
        ⟨i, Nat.le_refl _, by omega, hq⟩
      have hT2 : ∀ q, Touched address (i + 1) k q → Touched address i (k + 1) q := by
        rintro q ⟨j, h1, h2, hq⟩
        exact ⟨j, by omega, by omega, hq⟩
      refine ⟨s', G', (A3.mono hT1).trans (A'.mono hT2), hnb'.trans hnb, fun hok hne j h1 h2 => ?_⟩
      by_cases hj : j = i
      · subst hj
        refine ⟨n, G3.kept h3.place (ha j h1 h2) A'.keeps ?_ htr⟩
        rintro ⟨j', h1', h2', hq⟩
        exact hne j j' h1 (by omega) (by omega) hq
      · exact hall hok (fun j j' h1 h2 h3 => hne j j' (by omega) h2 (by omega)) j (by omega)
          (by omega)

/-! ## `alloc_page` and `alloc_kernel_page` -/

/-- The number of pages `alloc_page` maps. -/
def pageCount (size : Nat) : Nat := if size = 0 then 1 else size

/-- The pages of a call of `alloc_page` lie outside the window. -/
def UserRange (virtual size : Nat) : Prop :=
  ∀ i, i < pageCount size → Addr.pml4 (add64 virtual (i * 0x1000)) ≠ 511

theorem userRange_below {virtual size : Nat} (h : virtual + pageCount size * 0x1000 ≤ 0xC0000000) :
    UserRange virtual size := by
  intro i hi
  rw [add64_of_lt (by omega)]
  unfold Addr.pml4
  omega

theorem Good.allocPage {virtual size : Nat} {v : Addr} (G : Good s m) (h : Current s m r)
    (hu : UserRange virtual size) (hrun : allocPage virtual size m = some (v, m'))
    (hlog : ∀ e ∈ m'.log, e.Ok) :
    ∃ s' T, Good s' m' ∧ After r T s m s' m' ∧ m'.nextBlock = m.nextBlock := by
  obtain ⟨⟨ok, m1⟩, hfrom, he⟩ := Option.map_eq_some_iff.1 hrun
  cases he
  obtain ⟨s', G', A, hnb, -⟩ :=
    G.allocFrom h (fun j _ hj => hu j (by rwa [Nat.zero_add] at hj)) hfrom hlog
  exact ⟨s', _, G', A, hnb⟩

/-- The kernel pages that `alloc_kernel_page` maps. -/
def Fresh (first size q : Nat) : Prop := first ≤ q ∧ q < first + size

theorem kernelPage_eq {b i : Nat} (h : b + i < windowPage) :
    add64 b i * 0x1000 % 2 ^ 64 = (b + i) * 0x1000 := by
  unfold windowPage at h
  rw [add64_of_lt (by omega), Nat.mod_eq_of_lt (by omega)]

theorem page_frame {q : Nat} (h : q < windowPage) :
    Addr.frame (q * 0x1000) = q ∧ Addr.pml4 (q * 0x1000) ≠ 511 := by
  unfold windowPage at h
  unfold Addr.frame Addr.pml4
  omega

/-- **`alloc_kernel_page`** maps pages from `_kernel_next_block` on, or fails with some of them
mapped and `_kernel_next_block` where it was. -/
theorem Good.allocKernelPage {size : Nat} {v : Addr} (G : Good s m) (h : Current s m r)
    (hrun : allocKernelPage size m = some (v, m')) (hlog : ∀ e ∈ m'.log, e.Ok) :
    ∃ s', Good s' m' ∧ After r (Fresh m.nextBlock size) s m s' m' ∧
      m.nextBlock + size ≤ windowPage ∧
      (v = 0 ∧ m'.nextBlock = m.nextBlock ∨
        v = m.nextBlock * 0x1000 ∧ m'.nextBlock = m.nextBlock + size ∧
          ∀ q, Fresh m.nextBlock size q → ∃ n, translate m'.phys r (q * 0x1000) = some n) := by
  obtain ⟨⟨ok, m1⟩, hfrom, he⟩ := Option.map_eq_some_iff.1 hrun
  have hm1 : m1.log = m'.log := by
    dsimp only at he
    split at he <;> cases he <;> rfl
  rw [← hm1] at hlog
  have hle : m.nextBlock + size ≤ windowPage :=
    hlog (.pages m.nextBlock size) ((allocFrom_log hfrom).subset List.mem_cons_self)
  have hpage : ∀ j, j < size →
      add64 m.nextBlock j * 0x1000 % 2 ^ 64 = (m.nextBlock + j) * 0x1000 := fun j hj =>
    kernelPage_eq (by omega)
  have G0 : Good s { m with log := .pages m.nextBlock size :: m.log } :=
    ⟨G.forest, G.linked, G.size, G.plain.keep (List.suffix_cons _ _) fun _ _ _ _ h => h⟩
  have h0 : Current s { m with log := .pages m.nextBlock size :: m.log } r :=
    ⟨h.place, ⟨h.window.root, h.window.loop⟩, h.cr3⟩
  obtain ⟨s', G', A, hnb, hall⟩ := G0.allocFrom h0 (fun j _ hj => by
    rw [Nat.zero_add] at hj
    rw [show add64 _ j * 0x1000 % 2 ^ 64 = _ from hpage j hj]
    exact (page_frame (by omega)).2) hfrom hlog
  have hT : ∀ q, Touched (fun i => add64 m.nextBlock i * 0x1000 % 2 ^ 64) 0 size q →
      Fresh m.nextBlock size q := by
    rintro q ⟨j, -, hj, rfl⟩
    dsimp only
    rw [hpage j (by omega), (page_frame (by omega)).1]
    exact ⟨by omega, by omega⟩
  have A' : After r (Fresh m.nextBlock size) s m s' m1 :=
    ⟨A.le, A.keeps.mono hT, A.held, A.hands, A.live, A.cr3,
      (List.suffix_cons _ _).trans A.log, A.blocks, A.roots, A.other⟩
  have hnb : m1.nextBlock = m.nextBlock := hnb
  cases ok with
  | false =>
    cases he
    exact ⟨s', G', A', hle, .inl ⟨rfl, hnb⟩⟩
  | true =>
    cases he
    unfold windowPage at hle
    refine ⟨s', ⟨G'.forest, G'.linked, G'.size, G'.plain⟩,
      ⟨A'.le, A'.keeps, A'.held, A'.hands, A'.live, A'.cr3, A'.log, A'.blocks, A'.roots, A'.other⟩, hle,
      .inr ⟨?_, ?_, ?_⟩⟩
    · show sub64 (add64 m1.nextBlock size) size * 0x1000 % 2 ^ 64 = _
      rw [hnb, add64_of_lt (by omega), sub64_of_le (by omega) (by omega), Nat.add_sub_cancel,
        Nat.mod_eq_of_lt (by omega)]
    · show add64 m1.nextBlock size = _
      rw [hnb, add64_of_lt (by omega)]
    · rintro q ⟨h1, h2⟩
      have hj := hall rfl (fun j j' _ hlt hj' => by
        rw [show add64 _ j * 0x1000 % 2 ^ 64 = _ from hpage j (by omega),
          show add64 _ j' * 0x1000 % 2 ^ 64 = _ from hpage j' (by omega), (page_frame (by unfold windowPage; omega)).1,
          (page_frame (by unfold windowPage; omega)).1]
        omega) (q - m.nextBlock) (by omega) (by omega)
      rwa [show add64 _ _ * 0x1000 % 2 ^ 64 = _ from hpage _ (by omega), Nat.add_sub_cancel' h1] at hj

end

end Paging
