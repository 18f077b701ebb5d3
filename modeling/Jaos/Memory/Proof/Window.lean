import Jaos.Memory.Paging

/-!
# The window on the current tables

`Window m r`: entry 511 of the table in `cr3` leads to `r`, and entry 511 of `r` to `r` itself. For
the tables of a running system both are the table in `cr3`; while `memman_init` builds the first
tables, `cr3` is the loader's. A virtual address that starts with 511s then walks from `r` along
its other indices (`translate_window`), so the four arrays of the window show the tables below `r`
(`locate_pml4` to `locate_pt`), and `linkTable` and `writeFields` on them are updates of one entry
of physical memory (`linkTable_eq`, `writeFields_eq`).
-/

namespace Paging

open Lib Memman

/-! ## Updates of one entry -/

section
variable {phys : Phys} {f i x j : Nat} {e e' : Entry}

@[simp] theorem setEntry_same : setEntry f i e phys f i = e := by
  rw [setEntry, upd_same, upd_same]

theorem setEntry_ne (h : ¬ (x = f ∧ j = i)) : setEntry f i e phys x j = phys x j := by
  unfold setEntry
  by_cases hx : x = f
  · subst hx
    rw [upd_same, upd_ne _ _ fun hj => h ⟨rfl, hj⟩]
  · rw [upd_ne _ _ hx]

/-- The other frames. -/
theorem setEntry_frame (h : x ≠ f) : setEntry f i e phys x = phys x := upd_ne _ _ h

@[simp] theorem setEntry_setEntry : setEntry f i e (setEntry f i e' phys) = setEntry f i e phys := by
  funext x j
  by_cases h : x = f ∧ j = i
  · obtain ⟨rfl, rfl⟩ := h
    rw [setEntry_same, setEntry_same]
  · rw [setEntry_ne h, setEntry_ne h, setEntry_ne h]

theorem setEntry_self : setEntry f i (phys f i) phys = phys := by
  funext x j
  by_cases h : x = f ∧ j = i
  · obtain ⟨rfl, rfl⟩ := h
    exact setEntry_same
  · exact setEntry_ne h

theorem next_some {n : Nat} :
    next phys f i = some n ↔ (phys f i).present = true ∧ (phys f i).frame.toNat = n := by
  unfold next
  cases (phys f i).present <;> simp

theorem next_none : next phys f i = none ↔ (phys f i).present = false := by
  unfold next
  cases (phys f i).present <;> simp

theorem next_congr {phys' : Phys} (h : phys' x = phys x) : next phys' x = next phys x := by
  funext i
  unfold next
  rw [h]

/-- An entry written to lead to `n`. -/
theorem next_setEntry_same {n : Nat} (h : e.present = true ∧ e.frame.toNat = n) :
    next (setEntry f i e phys) f i = some n :=
  next_some.2 ⟨by rw [setEntry_same, h.1], by rw [setEntry_same, h.2]⟩

theorem next_setEntry_ne (h : ¬ (x = f ∧ j = i)) :
    next (setEntry f i e phys) x j = next phys x j := by
  unfold next
  rw [setEntry_ne h]

/-- **The walk of the processor** is the walk on frames and `present` bits where no entry on the way has a
bit that stops it. -/
theorem hardware_goes {is : List Nat}
    (h : ∀ js i ks g, is = js ++ i :: ks → walk (next phys) f js = some g → (phys g i).Goes ks.length) :
    hardware phys f is = walk (next phys) f is := by
  induction is generalizing f with
  | nil => rfl
  | cons i is ih =>
    obtain ⟨hnx, hmbz, hlarge⟩ := h [] i is f rfl rfl
    have hmbz : (decide (2 ≤ is.length) && (phys f i).mbz) = false := by
      by_cases h2 : 2 ≤ is.length
      · rw [hmbz h2, Bool.and_false]
      · rw [decide_eq_false h2, Bool.false_and]
    have hlarge : ((phys f i).large && !is.isEmpty) = false := by
      cases is with
      | nil => exact Bool.and_false _
      | cons j js => rw [hlarge (Nat.succ_ne_zero _), Bool.false_and]
    rw [hardware, walk, hnx, hmbz, hlarge]
    cases hp : (phys f i).present with
    | false => simp [next_none.2 hp]
    | true =>
      have hn : next phys f i = some (phys f i).frame.toNat := next_some.2 ⟨hp, rfl⟩
      simp only [Bool.not_true, Bool.or_false, Bool.false_eq_true, if_false, hn, Option.bind_some]
      exact ih fun js j ks g hjs hw => h (i :: js) j ks g (by rw [hjs, List.cons_append])
        (by rwa [walk_cons hn])

theorem hardware_eq {is : List Nat}
    (h : ∀ g j, Reads (next phys) f is g j → (phys g j).Plain) :
    hardware phys f is = walk (next phys) f is :=
  hardware_goes fun js i ks g hjs hw => (h g i ⟨js, ks, hjs, hw⟩).goes _

/-- A walk that does not look at an entry does not see it change. -/
theorem walk_setEntry {is : List Nat} (h : ¬ Reads (next phys) x is f i) :
    walk (next (setEntry f i e phys)) x is = walk (next phys) x is :=
  walk_congr fun _ _ hr => next_setEntry_ne fun he => h (he.1 ▸ he.2 ▸ hr)

end

/-! ## Writes through a virtual address -/

section
variable {m : Machine} {a : Addr} {f i : Nat}

theorem locate_some {x : Nat} (h : translate m.phys m.cr3 a = some x) :
    locate a m = some (x, a.offset / 8) := by
  rw [locate, h, Option.map_some]

/-- The bitmap and the history do not matter to a walk. -/
theorem locate_frames (f : Frames) (log : List Event) :
    locate a { m with frames := f, log } = locate a m := rfl

theorem load_eq (h : locate a m = some (f, i)) : load a m = some (m.phys f i) := by
  rw [load, h, Option.map_some]

/-- **Assignments to the fields of an entry** update it in place, where the walk to the entry does
not look at the entry itself. -/
theorem writeFields_eq {gs : List (Entry → Entry)} (h : locate a m = some (f, i))
    (hr : ¬ Reads (next m.phys) m.cr3 a.indices f i) :
    writeFields a gs m =
      some { m with phys := setEntry f i (gs.foldl (fun e g => g e) (m.phys f i)) m.phys } := by
  have hloc : ∀ e, locate a { m with phys := setEntry f i e m.phys } = some (f, i) := fun e => by
    rw [← h, locate, locate, translate, translate, walk_setEntry hr]
  -- the memory is `m`'s but for this entry, all along
  have key : ∀ e, writeFields a gs { m with phys := setEntry f i e m.phys } =
      some { m with phys := setEntry f i (gs.foldl (fun e g => g e) e) m.phys } := by
    induction gs with
    | nil => exact fun e => rfl
    | cons g gs ih =>
      intro e
      rw [writeFields, modify, hloc, Option.map_some, Option.bind_some]
      dsimp only
      rw [setEntry_same, setEntry_setEntry, ih, List.foldl_cons]
  have := key (m.phys f i)
  rwa [setEntry_self] at this

end

/-! ## New tables -/

/-- The frame an entry leads to. -/
def target (phys : Phys) (f i : Nat) : Nat := (phys f i).frame.toNat

/-- `linkTable` on entry `i` of the table `f`, at the address `a`. -/
def linkAt (user : Bool) (a : Addr) (f i : Nat) (m : Machine) : Machine :=
  if (m.phys f i).present then m
  else
    { m with
      phys := setEntry f i ⟨true, true, user, BitVec.ofNat 40 ((memAllocBlock m.frames).1 / 0x1000),
        (m.phys f i).rest⟩ m.phys
      frames := (memAllocBlock m.frames).2
      log := .table a ((memAllocBlock m.frames).1 / 0x1000)
        (m.phys ((memAllocBlock m.frames).1 / 0x1000)) :: m.log }

section
variable {m : Machine} {a : Addr} {user : Bool} {f i : Nat}

/-- An entry that is not present is not on the way to itself. -/
theorem not_reads_absent (h : locate a m = some (f, i)) (hp : (m.phys f i).present = false) :
    ¬ Reads (next m.phys) m.cr3 a.indices f i := by
  intro hr
  obtain ⟨x, hx, -⟩ := Option.map_eq_some_iff.1 h
  obtain ⟨y, hy⟩ := hr.isSome hx
  rw [next_none.2 hp] at hy
  cases hy

theorem linkTable_eq (h : locate a m = some (f, i)) :
    linkTable a user m = some (linkAt user a f i m) := by
  unfold linkTable linkAt
  rw [load_eq h, Option.bind_some]
  by_cases hp : (m.phys f i).present
  · rw [if_pos hp, if_pos hp]
  · rw [if_neg hp, if_neg hp]
    rw [Bool.not_eq_true] at hp
    exact writeFields_eq h (not_reads_absent h hp)

@[simp] theorem linkAt_cr3 : (linkAt user a f i m).cr3 = m.cr3 := by
  unfold linkAt
  split <;> rfl

@[simp] theorem linkAt_nextBlock : (linkAt user a f i m).nextBlock = m.nextBlock := by
  unfold linkAt
  split <;> rfl

theorem linkAt_ne {x j : Nat} (h : ¬ (x = f ∧ j = i)) :
    (linkAt user a f i m).phys x j = m.phys x j := by
  unfold linkAt
  split
  · rfl
  · exact setEntry_ne h

/-- The entry is present afterwards. -/
theorem next_linkAt :
    next (linkAt user a f i m).phys f i = some (target (linkAt user a f i m).phys f i) := by
  refine next_some.2 ⟨?_, rfl⟩
  unfold linkAt
  split
  · rename_i hp
    exact hp
  · dsimp only
    rw [setEntry_same]

/-- **A new table adds an edge** and takes none away. -/
theorem linkAt_mono (v j w : Nat) (h : next m.phys v j = some w) :
    next (linkAt user a f i m).phys v j = some w := by
  unfold linkAt
  split
  · exact h
  · rename_i hp
    rw [next_setEntry_ne fun he => ?_]
    · exact h
    · obtain ⟨rfl, rfl⟩ := he
      exact hp (next_some.1 h).1

end

/-! ## The window -/

/-- The tables in the window are those below `r`. -/
structure Window (m : Machine) (r : Nat) : Prop where
  root : next m.phys m.cr3 511 = some r
  loop : next m.phys r 511 = some r

section
variable {m : Machine} {r : Nat}

theorem Window.linkAt (h : Window m r) (user : Bool) (a : Addr) (f i : Nat) :
    Window (linkAt user a f i m) r :=
  ⟨by rw [linkAt_cr3]; exact linkAt_mono _ _ _ h.root, linkAt_mono _ _ _ h.loop⟩

/-- **An address of the window** walks below `r`. -/
theorem translate_window (h : Window m r) {a : Addr} {n : Nat} {l : List Nat}
    (ha : a.indices = 511 :: (List.replicate n 511 ++ l)) :
    translate m.phys m.cr3 a = walk (next m.phys) r l := by
  rw [translate, ha, walk_cons h.root, walk_loops h.loop]

section
variable {i j k : Nat}

theorem indices_pml4 (hi : i < 512) : (entryAt currentPml4 i).indices = [511, 511, 511, 511] ∧
    (entryAt currentPml4 i).offset / 8 = i := by
  unfold Addr.indices Addr.offset Addr.pml4 Addr.pdp Addr.pd Addr.pt entryAt add64 currentPml4
  simp only [List.cons.injEq, and_true]
  omega

theorem indices_pdp (hi : i < 512) (hj : j < 512) :
    (entryAt currentPdp (i * 512 + j)).indices = [511, 511, 511, i] ∧
      (entryAt currentPdp (i * 512 + j)).offset / 8 = j := by
  unfold Addr.indices Addr.offset Addr.pml4 Addr.pdp Addr.pd Addr.pt entryAt add64 currentPdp
  simp only [List.cons.injEq, and_true]
  omega

theorem indices_pd (hi : i < 512) (hj : j < 512) (hk : k < 512) :
    (entryAt currentPd ((i * 512 + j) * 512 + k)).indices = [511, 511, i, j] ∧
      (entryAt currentPd ((i * 512 + j) * 512 + k)).offset / 8 = k := by
  unfold Addr.indices Addr.offset Addr.pml4 Addr.pdp Addr.pd Addr.pt entryAt add64 currentPd
  simp only [List.cons.injEq, and_true]
  omega

theorem indices_pt (a : Addr) :
    (entryAt currentPt a.frame).indices = [511, a.pml4, a.pdp, a.pd] ∧
      (entryAt currentPt a.frame).offset / 8 = a.pt := by
  unfold Addr.indices Addr.offset Addr.pml4 Addr.pdp Addr.pd Addr.pt Addr.frame entryAt add64 currentPt
  simp only [List.cons.injEq, and_true]
  omega

end

/-- The indices of the tables on the way to the page of `a`. -/
def Addr.path (a : Addr) : List Nat := [a.pml4, a.pdp, a.pd]

theorem Addr.index_lt (a : Addr) : a.pml4 < 512 ∧ a.pdp < 512 ∧ a.pd < 512 ∧ a.pt < 512 :=
  ⟨Nat.mod_lt _ (by decide), Nat.mod_lt _ (by decide), Nat.mod_lt _ (by decide),
    Nat.mod_lt _ (by decide)⟩

theorem Addr.path_lt (a : Addr) : ∀ i ∈ a.path, i < 512 := by
  obtain ⟨h4, h3, h2, -⟩ := a.index_lt
  simp [Addr.path, h4, h3, h2]

theorem Addr.indices_lt (a : Addr) : ∀ i ∈ a.indices, i < 512 := by
  obtain ⟨h4, h3, h2, h1⟩ := a.index_lt
  simp [Addr.indices, h4, h3, h2, h1]

theorem Addr.indices_ofIndices {w x y z : Nat} (hw : w < 512) (hx : x < 512) (hy : y < 512)
    (hz : z < 512) : (Addr.ofIndices w x y z).indices = [w, x, y, z] := by
  unfold Addr.indices Addr.pml4 Addr.pdp Addr.pd Addr.pt Addr.ofIndices
  simp only [List.cons.injEq, and_true]
  omega

theorem locate_pml4 (h : Window m r) {i : Nat} (hi : i < 512) :
    locate (entryAt currentPml4 i) m = some (r, i) := by
  obtain ⟨hd, ho⟩ := indices_pml4 hi
  have := locate_some (translate_window h (n := 3) (l := []) hd)
  rwa [ho] at this

theorem locate_pdp (h : Window m r) {i j : Nat} (hi : i < 512) (hj : j < 512) :
    locate (entryAt currentPdp (i * 512 + j)) m =
      (walk (next m.phys) r [i]).map fun f => (f, j) := by
  obtain ⟨hd, ho⟩ := indices_pdp hi hj
  rw [locate, translate_window h (n := 2) hd, ho]

theorem locate_pd (h : Window m r) {i j k : Nat} (hi : i < 512) (hj : j < 512) (hk : k < 512) :
    locate (entryAt currentPd ((i * 512 + j) * 512 + k)) m =
      (walk (next m.phys) r [i, j]).map fun f => (f, k) := by
  obtain ⟨hd, ho⟩ := indices_pd hi hj hk
  rw [locate, translate_window h (n := 1) hd, ho]

theorem locate_pt (h : Window m r) (a : Addr) :
    locate (entryAt currentPt a.frame) m =
      (walk (next m.phys) r a.path).map fun f => (f, a.pt) := by
  obtain ⟨hd, ho⟩ := indices_pt a
  rw [locate, translate_window h (n := 0) hd, ho, Addr.path]

end

/-! ## `create_page_for_current` -/

/-- The address of the entry for the table of the level and region. -/
def tableEntry : (level region : Nat) → Addr
  | 3, q => entryAt currentPml4 q
  | 2, q => entryAt currentPdp q
  | 1, q => entryAt currentPd q
  | _, _ => 0

/-- The tables on the way along `is` from the table `f` of the level `l` and region `q`, those that are
missing linked. -/
def linkPath (user : Bool) : (l q f : Nat) → (is : List Nat) → Machine → Machine
  | _, _, _, [], m => m
  | l, q, f, i :: is, m =>
    let m := linkAt user (tableEntry (l - 1) (q * 512 + i)) f i m
    linkPath user (l - 1) (q * 512 + i) (target m.phys f i) is m

section
variable {m : Machine} {l q r f : Nat} {user : Bool} {is : List Nat}

/-- **The rule for `linkPath`**: a property that a link keeps, in the table at the end of a walk from
`f` along the first of the indices. -/
theorem linkPath_rule {P : Machine → Prop} (h : P m)
    (hlink : ∀ m js i g a, js ++ [i] <+: is → walk (next m.phys) f js = some g → P m →
      P (linkAt user a g i m)) : P (linkPath user l q f is m) := by
  -- `js` is the part of the path walked already
  have key : ∀ js ks l q g m, is = js ++ ks → walk (next m.phys) f js = some g → P m →
      P (linkPath user l q g ks m) := by
    intro js ks
    induction ks generalizing js with
    | nil => exact fun l q g m _ _ h => h
    | cons i ks ih =>
      intro l q g m his hw h
      have hsplit : is = (js ++ [i]) ++ ks := by rw [his, List.append_assoc, List.singleton_append]
      refine ih (js ++ [i]) _ _ _ _ hsplit ?_ (hlink m js i g _ ⟨ks, hsplit.symm⟩ hw h)
      rw [walk_snoc, walk_mono linkAt_mono hw, Option.bind_some, next_linkAt]
  exact key [] is l q f m rfl rfl h

@[simp] theorem linkPath_cr3 : (linkPath user l q f is m).cr3 = m.cr3 :=
  linkPath_rule (P := fun m' => m'.cr3 = m.cr3) rfl fun _ _ _ _ _ _ _ h => by rw [linkAt_cr3, h]

@[simp] theorem linkPath_nextBlock : (linkPath user l q f is m).nextBlock = m.nextBlock :=
  linkPath_rule (P := fun m' => m'.nextBlock = m.nextBlock) rfl fun _ _ _ _ _ _ _ h => by
    rw [linkAt_nextBlock, h]

/-- Tables that are there already are left alone. -/
theorem linkPath_append {js : List Nat} {g : Nat} (hw : walk (next m.phys) f js = some g) :
    ∃ l' q', linkPath user l q f (js ++ is) m = linkPath user l' q' g is m := by
  induction js generalizing l q f with
  | nil =>
    cases hw
    exact ⟨l, q, rfl⟩
  | cons i js ih =>
    obtain ⟨t, ht, hw⟩ := Option.bind_eq_some_iff.1 hw
    obtain ⟨hp, rfl⟩ := next_some.1 ht
    rw [List.cons_append, linkPath, linkAt, if_pos hp]
    exact ih hw

theorem linkPath_walk {g : Nat} (hw : walk (next m.phys) f is = some g) :
    linkPath user l q f is m = m := by
  obtain ⟨l', q', h⟩ := @linkPath_append m l q f user [] is g hw
  rwa [List.append_nil] at h

theorem linkPath_mono (v j w : Nat) (h : next m.phys v j = some w) :
    next (linkPath user l q f is m).phys v j = some w :=
  linkPath_rule (P := fun m' => next m'.phys v j = some w) h fun _ _ _ _ _ _ _ h =>
    linkAt_mono _ _ _ h

/-- The whole path is there afterwards. -/
theorem walk_linkPath : ∃ t, walk (next (linkPath user l q f is m).phys) f is = some t := by
  induction is generalizing l q f m with
  | nil => exact ⟨f, rfl⟩
  | cons i is ih =>
    let m1 := linkAt user (tableEntry (l - 1) (q * 512 + i)) f i m
    obtain ⟨t, ht⟩ := @ih m1 (l - 1) (q * 512 + i) (target m1.phys f i)
    exact ⟨t, (walk_cons (linkPath_mono _ _ _ next_linkAt)).trans ht⟩

theorem Window.linkPath (h : Window m r) : Window (linkPath user l q f is m) r :=
  ⟨by rw [linkPath_cr3]; exact linkPath_mono _ _ _ h.root, linkPath_mono _ _ _ h.loop⟩

/-- **`create_page_for_current`** links the missing tables and returns the entry's address in the
window. -/
theorem createPage_eq (h : Window m r) (a : Addr) (user : Bool) : createPageForCurrent a user m =
    some (entryAt currentPt a.frame, Paging.linkPath user 4 0 r a.path m) := by
  obtain ⟨h4, h3, h2, -⟩ := a.index_lt
  have w1 := @next_linkAt m (entryAt currentPml4 a.pml4) user r a.pml4
  have win1 := h.linkAt user (entryAt currentPml4 a.pml4) r a.pml4
  have l1 := locate_pdp win1 h4 h3
  rw [walk_cons w1, walk_nil, Option.map_some] at l1
  have win2 := win1.linkAt user (entryAt currentPdp (a.pml4 * 512 + a.pdp)) (target
    (Paging.linkAt user (entryAt currentPml4 a.pml4) r a.pml4 m).phys r a.pml4) a.pdp
  have l2 := locate_pd win2 h4 h3 h2
  rw [walk_cons (linkAt_mono _ _ _ w1), walk_cons next_linkAt, walk_nil, Option.map_some] at l2
  unfold createPageForCurrent
  rw [linkTable_eq (locate_pml4 h h4), Option.bind_some, linkTable_eq l1, Option.bind_some,
    linkTable_eq l2, Option.map_some]
  simp only [Addr.path, Paging.linkPath, tableEntry, Nat.zero_mul, Nat.zero_add]

end

end Paging
