import Jaos.Memory.RecursiveMap
import Jaos.Memory.Proof.Frames

/-!
# `clean_user_space`, page by page

A page is known by its number here. `clean_user_space` visits the pages below 3 GB in their order, and
its condition spares the last gigabyte, the last 2 MB of each gigabyte and the last two pages of every
2 MB (`Spared`). `CleanedTo m0 N es m` says what it has done to the machine `m0` when it gets to page
`N`: the entries `es` are cleared, each of them once, and their frames freed.

Nothing is asked of the tables, so an entry that is cleared can be part of the way to another page, to
the tables in the window or to the kernel. As long as no translation outside user space has changed
(`Static`), the window shows the tables as they were, and the loops go on (`cleanPage_gets`,
`table_gets`, `directory_gets`). Entries are only cleared, so once a translation is lost it stays so:
the function gets to its end with `Static`, or passes a state without it and ends below that
(`cleanUserSpace_gets`).
-/

namespace Paging

open Lib Memman

/-- The pages that the condition in `clean_user_space` spares. -/
def Spared (q : Nat) : Prop := q / (512 * 512) = 2 ∨ q / 512 % 512 = 511 ∨ 510 ≤ q % 512

instance (q : Nat) : Decidable (Spared q) := inferInstanceAs (Decidable (_ ∨ _ ∨ _))

/-- The entry of level 1 that the hardware uses for page `q`. -/
def pageEntry (m : Machine) (q : Nat) : Option (Nat × Nat) := entryOf 3 (q * 0x1000) m

/-- What `mem_free_block` is given for the page behind an entry. -/
def freedAddr (m : Machine) (e : Nat × Nat) : Nat := (m.phys e.1 e.2).address

/-- `mem_free_block` for each of the addresses. -/
def freeAll (addrs : List Nat) (f : Frames) : Frames := addrs.foldl (fun f a => memFreeBlock a f) f

/-! ## Freeing a list of frames -/

section
variable {addrs : List Nat} {f : Frames}

theorem freeAll_append {addrs' : List Nat} :
    freeAll (addrs ++ addrs') f = freeAll addrs' (freeAll addrs f) := List.foldl_append

theorem freeAll_bit (k : Nat) : (freeAll addrs f).memoryMap.bit k =
    (!decide (k ∈ addrs.map (· / memBlockSize)) && f.memoryMap.bit k) := by
  induction addrs generalizing f with
  | nil => simp [freeAll]
  | cons a l ih =>
    have hbit : (memFreeBlock a f).memoryMap.bit k =
        (!decide (k = a / memBlockSize) && f.memoryMap.bit k) := by
      unfold memFreeBlock mmapUnset
      dsimp only
      rw [Words.bit_unset]
    rw [freeAll, List.foldl_cons, ← freeAll, ih, hbit, ← Bool.and_assoc, Bool.eq_iff_iff]
    simp [and_comm]

theorem freeAll_usedBlocks (h : f.usedBlocks < 2 ^ 64) :
    (freeAll addrs f).usedBlocks = sub64 f.usedBlocks addrs.length := by
  induction addrs generalizing f with
  | nil =>
    rw [List.length_nil, sub64_of_le (Nat.zero_le _) h]
    rfl
  | cons a l ih =>
    rw [freeAll, List.foldl_cons, ← freeAll, ih (sub64_lt _ _), List.length_cons]
    show sub64 (sub64 f.usedBlocks 1) l.length = _
    unfold sub64
    omega

end

/-! ## Pages by number -/

section
variable {q i z y : Nat}

theorem pageAddr_indices (h : q < 0xC0000) : Addr.indices (q * 0x1000) =
    [0, q / (512 * 512), q / 512 % 512, q % 512] := by
  unfold Addr.indices Addr.pml4 Addr.pdp Addr.pd Addr.pt
  simp only [List.cons.injEq, and_true]
  omega

theorem pageAddr_path (h : q < 0xC0000) : Addr.path (q * 0x1000) =
    [0, q / (512 * 512), q / 512 % 512] := by
  have := pageAddr_indices h
  simp only [Addr.indices, List.cons.injEq, and_true] at this
  obtain ⟨h4, h3, h2, -⟩ := this
  rw [Addr.path, h4, h3, h2]

theorem pageAddr_frame (h : q < 0xC0000) : Addr.frame (q * 0x1000) = q := by
  unfold Addr.frame
  omega

/-- The number of page `y` of the table `z` of the directory `i`. -/
def pageNumber (i z y : Nat) : Nat := (i * 512 + z) * 512 + y

theorem pageNumber_succ : pageNumber i z (y + 1) = pageNumber i z y + 1 := by
  unfold pageNumber
  omega

theorem pageNumber_spec (hi : i < 3) (hz : z < 512) (hy : y < 512) :
    pageNumber i z y < 0xC0000 ∧ pageNumber i z y / (512 * 512) = i ∧
      pageNumber i z y / 512 % 512 = z ∧ pageNumber i z y % 512 = y := by
  unfold pageNumber
  omega

/-- The entry of a page, along the indices of its tables. -/
theorem pageEntry_eq {m : Machine} (h : q < 0xC0000) : pageEntry m q =
    (walk (next m.phys) m.cr3 [0, q / (512 * 512), q / 512 % 512]).map fun t => (t, q % 512) := by
  have hind := pageAddr_indices h
  rw [pageEntry, entryOf, hind]
  rfl

/-- A page is mapped to what its entry leads to. -/
theorem translate_pageEntry {m : Machine} :
    translate m.phys m.cr3 (q * 0x1000) = (pageEntry m q).bind fun e => next m.phys e.1 e.2 := by
  cases h : pageEntry m q with
  | none =>
    have hw : walk (next m.phys) m.cr3 (Addr.path (q * 0x1000)) = none := Option.map_eq_none_iff.1 h
    exact (@walk_snoc _ _ _ _ _ (Addr.path (q * 0x1000))).trans (by rw [hw]; rfl)
  | some e => exact translate_entryOf h

end

/-! ## Entries that are cleared -/

/-- The machine `m'` has the edges of `m` but for some that are gone. -/
structure Sub (m' m : Machine) : Prop where
  edges : ∀ f i n, next m'.phys f i = some n → next m.phys f i = some n
  cr3 : m'.cr3 = m.cr3

namespace Sub

variable {m m' m'' : Machine}

theorem refl (m : Machine) : Sub m m := ⟨fun _ _ _ h => h, rfl⟩

theorem trans (h : Sub m'' m') (h' : Sub m' m) : Sub m'' m :=
  ⟨fun f i n hn => h'.edges f i n (h.edges f i n hn), h.cr3.trans h'.cr3⟩

theorem walk (h : Sub m' m) {r n : Nat} {is : List Nat} (hw : Lib.walk (next m'.phys) r is = some n) :
    Lib.walk (next m.phys) r is = some n := walk_mono h.edges hw

/-- A walk that is still there looks at the same entries. -/
theorem reads (h : Sub m' m) {r n f i : Nat} {is : List Nat}
    (hw : Lib.walk (next m'.phys) r is = some n) (hr : Reads (next m.phys) r is f i) :
    ∃ k, next m'.phys f i = some k := by
  obtain ⟨js, ks, rfl, hf⟩ := hr
  rw [walk_append] at hw
  obtain ⟨g, hg, hw⟩ := Option.bind_eq_some_iff.1 hw
  obtain rfl : g = f := Option.some.inj ((h.walk hg).symm.trans hf)
  obtain ⟨k, hk, -⟩ := Option.bind_eq_some_iff.1 hw
  exact ⟨k, hk⟩

end Sub

section
variable {m m' : Machine} {a : Addr}

theorem cleanPage_sub {i z y : Nat} (h : cleanPage i z y m = some m') : Sub m' m := by
  obtain ⟨e, -, h⟩ := Option.bind_eq_some_iff.1 h
  split at h
  · obtain ⟨l, -, rfl⟩ := Option.map_eq_some_iff.1 h
    refine ⟨fun f i n hn => ?_, rfl⟩
    dsimp only at hn
    by_cases hl : f = l.1 ∧ i = l.2
    · obtain ⟨rfl, rfl⟩ := hl
      rw [next_none.2 (by rw [setEntry_same]; rfl)] at hn
      cases hn
    · rwa [next_setEntry_ne hl] at hn
  · cases h
    exact .refl m

theorem ifPresent_sub {body : Machine → Option Machine} (hbody : ∀ m m', body m = some m' → Sub m' m)
    (h : ifPresent a body m = some m') : Sub m' m := by
  obtain ⟨e, -, h⟩ := Option.bind_eq_some_iff.1 h
  split at h
  · exact hbody m m' h
  · cases h
    exact .refl m

end

/-- What comes later has no more edges. -/
def Later (m m' : Machine) : Prop := Sub m' m

theorem Later.refl (m : Machine) : Later m m := Sub.refl m

theorem Later.trans (a b c : Machine) (h : Later a b) (h' : Later b c) : Later a c := Sub.trans h' h

/-! ## The state of the loops -/

/-- **The pages below `N` are done**: the entries `es` of those that were present and are not spared
are cleared. -/
structure CleanedTo (m0 : Machine) (N : Nat) (es : List (Nat × Nat)) (m : Machine) : Prop where
  once : es.Nodup
  mem : ∀ e, e ∈ es ↔
    (∃ q < N, ¬ Spared q ∧ pageEntry m0 q = some e) ∧ (m0.phys e.1 e.2).present = true
  gone : ∀ e ∈ es, next m.phys e.1 e.2 = none
  same : ∀ e, e ∉ es → m.phys e.1 e.2 = m0.phys e.1 e.2
  frames : m.frames = freeAll (es.map (freedAddr m0)) m0.frames
  log : m.log = (es.map (freedAddr m0)).reverse.map .freed ++ m0.log
  cr3 : m.cr3 = m0.cr3

/-- No translation outside user space has changed. -/
def Static (m0 m : Machine) : Prop :=
  ∀ b : Addr, 0xC0000 ≤ b.frame → translate m.phys m.cr3 b = translate m0.phys m0.cr3 b

/-- Page `N` is next, and the tables are as they were. -/
def Reached (m0 : Machine) (N : Nat) (m : Machine) : Prop := Static m0 m ∧ ∃ es, CleanedTo m0 N es m

/-- A translation outside user space is lost. -/
def Lost (m0 m : Machine) : Prop := ¬ Static m0 m ∧ ∃ N es, N ≤ 0xC0000 ∧ CleanedTo m0 N es m

section
variable {m0 m m' : Machine} {N k : Nat} {es : List (Nat × Nat)}

theorem CleanedTo.start (m : Machine) : CleanedTo m 0 [] m := by
  refine ⟨List.nodup_nil, fun e => ?_, by simp, fun _ _ => rfl, rfl, rfl, rfl⟩
  simp

theorem CleanedTo.next_of_not_mem (C : CleanedTo m0 N es m) {e : Nat × Nat} (he : e ∉ es) :
    next m.phys e.1 e.2 = next m0.phys e.1 e.2 := by
  rw [next, next, C.same e he]

theorem CleanedTo.sub (C : CleanedTo m0 N es m) : Sub m m0 := by
  refine ⟨fun f i n hn => ?_, C.cr3⟩
  by_cases he : (f, i) ∈ es
  · rw [C.gone (f, i) he] at hn
    cases hn
  · rwa [C.next_of_not_mem (e := (f, i)) he] at hn

/-- **Between two states** that agree on a translation nothing has happened to it. -/
theorem Static.of_sub (h : Static m0 m') (hm : Sub m m0) (hm' : Sub m' m) : Static m0 m := by
  intro b hb
  cases hw : translate m0.phys m0.cr3 b with
  | some n =>
    have := (h b hb).trans hw
    rw [hm'.cr3] at this
    exact hm'.walk this
  | none =>
    cases hw' : translate m.phys m.cr3 b with
    | none => rfl
    | some n =>
      rw [hm.cr3] at hw'
      rw [translate, hm.walk hw'] at hw
      cases hw

/-- An address of the window for at most three indices. -/
theorem exists_window {js : List Nat} (hlen : js.length ≤ 3) (hlt : ∀ i ∈ js, i < 512) :
    ∃ (b : Addr) (n : Nat), 0xC0000 ≤ b.frame ∧ b.indices = 511 :: (List.replicate n 511 ++ js) := by
  have key : ∀ x y z, x < 512 → y < 512 → z < 512 →
      ∃ b : Addr, 0xC0000 ≤ b.frame ∧ b.indices = [511, x, y, z] := by
    intro x y z hx hy hz
    refine ⟨_, ?_, Addr.indices_ofIndices (by decide) hx hy hz⟩
    unfold Addr.frame Addr.ofIndices
    omega
  match js, hlen with
  | [], _ =>
    obtain ⟨b, h1, h2⟩ := key 511 511 511 (by decide) (by decide) (by decide)
    exact ⟨b, 3, h1, h2⟩
  | [x], _ =>
    obtain ⟨b, h1, h2⟩ := key 511 511 x (by decide) (by decide) (hlt x (by simp))
    exact ⟨b, 2, h1, h2⟩
  | [x, y], _ =>
    obtain ⟨b, h1, h2⟩ := key 511 x y (by decide) (hlt x (by simp)) (hlt y (by simp))
    exact ⟨b, 1, h1, h2⟩
  | [x, y, z], _ =>
    obtain ⟨b, h1, h2⟩ := key x y z (hlt x (by simp)) (hlt y (by simp)) (hlt z (by simp))
    exact ⟨b, 0, h1, h2⟩

/-- The window still shows the tables of the space. -/
theorem Static.window (h : Static m0 m) (hself : next m0.phys m0.cr3 511 = some m0.cr3)
    (hm : Sub m m0) : Window m m.cr3 := by
  obtain ⟨b, n, hb, hind⟩ : ∃ (b : Addr) (n : Nat), 0xC0000 ≤ b.frame ∧
      b.indices = 511 :: (List.replicate n 511 ++ []) := exists_window (by simp) (by simp)
  have hw := (h b hb).trans ((translate_window ⟨hself, hself⟩ hind).trans walk_nil)
  rw [translate, hind] at hw
  obtain ⟨x, hx, -⟩ := Option.bind_eq_some_iff.1 hw
  have hx0 := hm.edges _ _ _ hx
  rw [hm.cr3, hself] at hx0
  obtain rfl := Option.some.inj hx0
  rw [← hm.cr3] at hx
  exact ⟨hx, hx⟩

/-- **The tables are as they were.** -/
theorem Static.tables (h : Static m0 m) (hself : next m0.phys m0.cr3 511 = some m0.cr3)
    (hm : Sub m m0) {js : List Nat} (hlen : js.length ≤ 3) (hlt : ∀ i ∈ js, i < 512) :
    walk (next m.phys) m.cr3 js = walk (next m0.phys) m0.cr3 js := by
  obtain ⟨b, n, hb, hind⟩ := exists_window hlen hlt
  have hw := h b hb
  rwa [translate_window (h.window hself hm) hind, translate_window ⟨hself, hself⟩ hind] at hw

/-! ## Pages that are passed over -/

/-- Pages that have no entry. -/
theorem CleanedTo.skip (C : CleanedTo m0 N es m)
    (h : ∀ q : Nat, N ≤ q → q < N + k → pageEntry m0 q = none) : CleanedTo m0 (N + k) es m := by
  refine ⟨C.once, fun e => ?_, C.gone, C.same, C.frames, C.log, C.cr3⟩
  rw [C.mem]
  refine and_congr_left fun _ => ⟨?_, ?_⟩
  · rintro ⟨q, hq, hs⟩
    exact ⟨q, by omega, hs⟩
  · rintro ⟨q, hq, hs, he⟩
    refine ⟨q, ?_, hs, he⟩
    by_contra hlt
    rw [h q (by omega) hq] at he
    cases he

/-- A page that is spared, or whose entry is not present (any more). -/
theorem CleanedTo.pass {t j : Nat} (C : CleanedTo m0 N es m) (he : pageEntry m0 N = some (t, j))
    (h : Spared N ∨ (m.phys t j).present = false) : CleanedTo m0 (N + 1) es m := by
  refine ⟨C.once, fun e => ⟨fun hmem => ?_, ?_⟩, C.gone, C.same, C.frames, C.log, C.cr3⟩
  · obtain ⟨⟨q, hq, hs⟩, hp⟩ := (C.mem e).1 hmem
    exact ⟨⟨q, by omega, hs⟩, hp⟩
  · rintro ⟨⟨q, hq, hs, hqe⟩, hp⟩
    by_cases hN : q < N
    · exact (C.mem e).2 ⟨⟨q, hN, hs, hqe⟩, hp⟩
    · obtain rfl : q = N := by omega
      obtain rfl := Option.some.inj (he.symm.trans hqe)
      by_contra hnot
      rcases h with h | h
      · exact hs h
      · have := C.same (t, j) hnot
        dsimp only at this hp
        rw [this, hp] at h
        cases h

/-- The machine after entry `j` of the table `t` is cleared and the frame behind it freed. -/
def Machine.clear (t j : Nat) (m : Machine) : Machine :=
  { m with
    phys := setEntry t j .zero m.phys
    frames := memFreeBlock (m.phys t j).address m.frames
    log := .freed (m.phys t j).address :: m.log }

/-- **A page that goes**: its entry is cleared and the frame freed. -/
theorem CleanedTo.clear {t j : Nat} (C : CleanedTo m0 N es m) (he : pageEntry m0 N = some (t, j))
    (hs : ¬ Spared N) (hp : (m.phys t j).present = true) :
    CleanedTo m0 (N + 1) (es ++ [(t, j)]) (m.clear t j) := by
  have hnot : (t, j) ∉ es := fun hmem => by
    have := next_none.1 (C.gone _ hmem)
    rw [hp] at this
    cases this
  have hsame : m.phys t j = m0.phys t j := C.same (t, j) hnot
  have haddr : (m.phys t j).address = freedAddr m0 (t, j) := by rw [hsame, freedAddr]
  have hne : ∀ e : Nat × Nat, e ≠ (t, j) → ¬ (e.1 = t ∧ e.2 = j) := fun e h hh =>
    h (Prod.ext hh.1 hh.2)
  refine ⟨List.nodup_append.2 ⟨C.once, List.nodup_singleton _, fun e h e' h' => ?_⟩, fun e => ?_,
    fun e hmem => ?_, fun e hmem => ?_, ?_, ?_, C.cr3⟩
  · rintro rfl
    exact hnot (List.mem_singleton.1 h' ▸ h)
  · rw [List.mem_append, List.mem_singleton, C.mem]
    constructor
    · rintro (⟨⟨q, hq, h⟩, hpe⟩ | rfl)
      · exact ⟨⟨q, by omega, h⟩, hpe⟩
      · exact ⟨⟨N, Nat.lt_succ_self N, hs, he⟩, by rwa [← hsame]⟩
    · rintro ⟨⟨q, hq, hqs, hqe⟩, hpe⟩
      by_cases hN : q < N
      · exact .inl ⟨⟨q, hN, hqs, hqe⟩, hpe⟩
      · obtain rfl : q = N := by omega
        exact .inr (Option.some.inj (hqe.symm.trans he))
  · dsimp only [Machine.clear]
    by_cases heq : e = (t, j)
    · subst heq
      exact next_none.2 (by rw [setEntry_same]; rfl)
    · rw [next_setEntry_ne (hne e heq)]
      exact C.gone e ((List.mem_append.1 hmem).resolve_right fun h => heq (List.mem_singleton.1 h))
  · rw [List.mem_append, List.mem_singleton, not_or] at hmem
    exact (setEntry_ne (hne e hmem.2)).trans (C.same e hmem.1)
  · dsimp only [Machine.clear]
    rw [haddr, C.frames, List.map_append, freeAll_append]
    rfl
  · dsimp only [Machine.clear]
    rw [haddr, C.log, List.map_append, List.reverse_append]
    rfl

/-! ## The bodies of the loops -/

/-- **One page**: cleared and its frame freed, or left alone. -/
theorem cleanPage_gets {i z y t : Nat} (hself : next m0.phys m0.cr3 511 = some m0.cr3) (hi : i < 3)
    (hz : z < 512) (hy : y < 512) (ht : walk (next m0.phys) m0.cr3 [0, i, z] = some t) :
    Gets (Lost m0) Later (Reached m0 (pageNumber i z y)) (Reached m0 (pageNumber i z (y + 1)))
      (cleanPage i z y) := by
  rintro m ⟨S, es, C⟩
  obtain ⟨hq, h3, h2, h1⟩ := pageNumber_spec hi hz hy
  have hspared : Spared (pageNumber i z y) ↔ i = 2 ∨ z = 511 ∨ 510 ≤ y := by
    unfold Spared
    rw [h3, h2, h1]
  have he : pageEntry m0 (pageNumber i z y) = some (t, y) := by
    rw [pageEntry_eq hq, h3, h2, h1, ht, Option.map_some]
  rw [pageNumber_succ]
  -- the entry is where it was
  have hloc : locate (getPageEntry 0 i z y) m = some (t, y) := by
    have hind := Addr.indices_ofIndices (show 0 < 512 by decide) (show i < 512 by omega) hz hy
    simp only [Addr.indices, List.cons.injEq, and_true] at hind
    obtain ⟨a4, a3, a2, a1⟩ := hind
    have hl := locate_pt (S.window hself C.sub) (Addr.ofIndices 0 i z y)
    rw [Addr.path, a4, a3, a2, a1, S.tables hself C.sub (by simp) (by simp; omega), ht,
      Option.map_some, ← Addr.frame_eq, a4, a3, a2, a1] at hl
    exact hl
  by_cases hc : (m.phys t y).present ∧ y < 510 ∧ z ≠ 511 ∧ i ≠ 2
  · have hrun : cleanPage i z y m = some (m.clear t y) := by
      unfold cleanPage
      dsimp only
      rw [load_eq hloc, Option.bind_some, if_pos hc, modify, locate_frames, hloc, Option.map_some]
      rfl
    have C' := C.clear he (by rw [hspared]; omega) hc.1
    by_cases S' : Static m0 (m.clear t y)
    · exact .inl ⟨_, hrun, S', _, C'⟩
    · refine .inr ⟨_, ⟨S', _, _, hq, C'⟩, fun s' hs' => ?_⟩
      rw [hrun] at hs'
      exact Option.some.inj hs' ▸ .refl _
  · have hrun : cleanPage i z y m = some m := by
      unfold cleanPage
      dsimp only
      rw [load_eq hloc, Option.bind_some, if_neg hc]
    refine .inl ⟨m, hrun, S, es, C.pass he ?_⟩
    by_cases hp : (m.phys t y).present = true
    · have : ¬ (y < 510 ∧ z ≠ 511 ∧ i ≠ 2) := fun h => hc ⟨hp, h⟩
      exact .inl (hspared.2 (by omega))
    · exact .inr (by simpa using hp)

/-- `if (entry->present == 1)`, at an entry of a table that is as it was. -/
theorem ifPresent_gets {a : Addr} {body : Machine → Option Machine} {N N' : Nat} {js : List Nat}
    {d j : Nat} (hlen : (js ++ [j]).length ≤ 3) (hlt : ∀ i ∈ js ++ [j], i < 512)
    (hself : next m0.phys m0.cr3 511 = some m0.cr3) (hd : walk (next m0.phys) m0.cr3 js = some d)
    (hloc : ∀ m, Window m m.cr3 → locate a m = (walk (next m.phys) m.cr3 js).map fun f => (f, j))
    (hskip : walk (next m0.phys) m0.cr3 (js ++ [j]) = none → ∀ es m, CleanedTo m0 N es m →
      CleanedTo m0 N' es m)
    (hbody : ∀ t, walk (next m0.phys) m0.cr3 (js ++ [j]) = some t →
      Gets (Lost m0) Later (Reached m0 N) (Reached m0 N') body) :
    Gets (Lost m0) Later (Reached m0 N) (Reached m0 N') (ifPresent a body) := by
  rintro m ⟨S, es, C⟩
  have hjs : walk (next m.phys) m.cr3 js = some d := by
    rw [S.tables hself C.sub (by simp at hlen; omega) fun i hi => hlt i (List.mem_append_left _ hi), hd]
  have hnext : next m.phys d j = walk (next m0.phys) m0.cr3 (js ++ [j]) := by
    rw [← S.tables hself C.sub hlen hlt, walk_snoc, hjs, Option.bind_some]
  have hl := hloc m (S.window hself C.sub)
  rw [hjs, Option.map_some] at hl
  unfold ifPresent
  rw [load_eq hl, Option.bind_some]
  split
  · rename_i hp
    rw [next, if_pos hp] at hnext
    exact hbody _ hnext.symm m ⟨S, es, C⟩
  · rename_i hp
    rw [next, if_neg hp] at hnext
    exact .inl ⟨m, rfl, S, es, hskip hnext.symm es m C⟩

/-- **The pages of one table.** -/
theorem table_gets {i z d : Nat} (hself : next m0.phys m0.cr3 511 = some m0.cr3) (hi : i < 3)
    (hz : z < 512) (hd : walk (next m0.phys) m0.cr3 [0, i] = some d) :
    Gets (Lost m0) Later (Reached m0 (pageNumber i z 0)) (Reached m0 (pageNumber i (z + 1) 0))
      (ifPresent (getPdEntry 0 i z) (loop (fun y => cleanPage i z y) 512 0)) := by
  have hend : pageNumber i (z + 1) 0 = pageNumber i z 0 + 512 := by
    unfold pageNumber
    omega
  have hlt : ∀ x ∈ [0, i] ++ [z], x < 512 := by simp; omega
  refine ifPresent_gets (by simp) hlt hself hd
    (fun m h => locate_pd h (by decide) (by omega) hz) (fun hnone es m C => ?_) fun t ht => ?_
  · rw [hend]
    refine C.skip fun q h1 h2 => ?_
    have hq : q < 0xC0000 := by
      unfold pageNumber at h2
      omega
    have hdivs : q / (512 * 512) = i ∧ q / 512 % 512 = z := by
      unfold pageNumber at h1 h2
      omega
    rw [pageEntry_eq hq, hdivs.1, hdivs.2, show [0, i, z] = [0, i] ++ [z] from rfl, hnone,
      Option.map_none]
  · have hloop := Gets.loop (P := fun y => Reached m0 (pageNumber i z y)) (n := 512) (i := 0)
      Later.refl Later.trans (fun _ _ _ => cleanPage_sub)
      fun y _ hy => cleanPage_gets hself hi hz (by omega) ht
    rwa [show pageNumber i z (0 + 512) = pageNumber i (z + 1) 0 by unfold pageNumber; omega] at hloop

/-- **The pages of one directory.** -/
theorem directory_gets {i d : Nat} (hself : next m0.phys m0.cr3 511 = some m0.cr3) (hi : i < 3)
    (hd : walk (next m0.phys) m0.cr3 [0] = some d) :
    Gets (Lost m0) Later (Reached m0 (pageNumber i 0 0)) (Reached m0 (pageNumber (i + 1) 0 0))
      (ifPresent (getPdpEntry 0 i) (loop (fun z => ifPresent (getPdEntry 0 i z)
        (loop (fun y => cleanPage i z y) 512 0)) 512 0)) := by
  have hend : pageNumber (i + 1) 0 0 = pageNumber i 0 0 + 512 * 512 := by
    unfold pageNumber
    omega
  have hlt : ∀ x ∈ [0] ++ [i], x < 512 := by simp; omega
  refine ifPresent_gets (by simp) hlt hself hd
    (fun m h => locate_pdp h (by decide) (by omega)) (fun hnone es m C => ?_) fun t ht => ?_
  · rw [hend]
    refine C.skip fun q h1 h2 => ?_
    have hq : q < 0xC0000 := by
      unfold pageNumber at h2
      omega
    have hdiv : q / (512 * 512) = i := by
      unfold pageNumber at h1 h2
      omega
    rw [pageEntry_eq hq, hdiv, show [0, i, q / 512 % 512] = ([0] ++ [i]) ++ [q / 512 % 512] from rfl,
      walk_snoc, hnone, Option.bind_none, Option.map_none]
  · have hloop := Gets.loop (P := fun z => Reached m0 (pageNumber i z 0)) (n := 512) (i := 0)
      Later.refl Later.trans
      (fun _ _ _ => ifPresent_sub fun _ _ => loop_related Later.refl Later.trans fun _ _ _ => cleanPage_sub)
      fun z _ hz => table_gets hself hi (by omega) ht
    rwa [show pageNumber i (0 + 512) 0 = pageNumber (i + 1) 0 0 by unfold pageNumber; omega] at hloop

/-- **`clean_user_space`** gets to its end with every translation outside user space as it was, or
loses one for good. -/
theorem cleanUserSpace_gets {d : Nat} (hself : next m0.phys m0.cr3 511 = some m0.cr3)
    (hd : walk (next m0.phys) m0.cr3 [0] = some d) :
    Gets (Lost m0) Later (Reached m0 0) (Reached m0 0xC0000) cleanUserSpace :=
  Gets.loop (P := fun i => Reached m0 (pageNumber i 0 0)) (n := 3) (i := 0) Later.refl Later.trans
    (fun _ _ _ => ifPresent_sub fun _ _ => loop_related Later.refl Later.trans fun _ _ _ =>
      ifPresent_sub fun _ _ => loop_related Later.refl Later.trans fun _ _ _ => cleanPage_sub)
    fun _ _ hi => directory_gets hself (by omega) hd

/-- The state before the loops. -/
theorem Reached.start (m : Machine) : Reached m 0 m := ⟨fun _ _ => rfl, [], .start m⟩

/-- Without a table for the first 512 gigabytes it faults. -/
theorem cleanUserSpace_low (hself : next m.phys m.cr3 511 = some m.cr3)
    (h : cleanUserSpace m = some m') : ∃ d, walk (next m.phys) m.cr3 [0] = some d := by
  obtain ⟨m1, h1, -⟩ := Option.bind_eq_some_iff.1 h
  obtain ⟨e, he, -⟩ := Option.bind_eq_some_iff.1 h1
  obtain ⟨l, hl, -⟩ := Option.map_eq_some_iff.1 he
  rw [getPdpEntry, locate_pdp ⟨hself, hself⟩ (by decide) (by decide)] at hl
  obtain ⟨d, hd, -⟩ := Option.map_eq_some_iff.1 hl
  exact ⟨d, hd⟩

end

end Paging
