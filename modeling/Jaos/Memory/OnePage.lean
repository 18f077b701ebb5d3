import Jaos.Memory.Proof.Window
import Jaos.Memory.Proof.Frames

/-!
# What mapping one page changes

`MapsOne a user m`: whatever the frames hold that are no tables of the current space,
`create_page_for_current(a, user)` followed by filling the entry leaves the translation of every
other page alone, pages of the window aside. `maps_one_iff`: this is so exactly when no table on the
way to `a` is missing and the entry of `a` is on the way to no other page. A missing table is taken
from a frame that is not cleared, and what it held becomes mappings.
-/

namespace Paging

open Lib Memman

/-- The tables of the current space, of any level. -/
def Table (m : Machine) (f : Nat) : Prop :=
  ∃ is, is.length ≤ 3 ∧ (∀ i ∈ is, i < 512) ∧ walk (next m.phys) m.cr3 is = some f

/-- Memory with other contents in the frames that are no tables. -/
def SameTables (m : Machine) (phys : Phys) : Prop := ∀ f, Table m f → phys f = m.phys f

def Machine.withPhys (m : Machine) (phys : Phys) : Machine := { m with phys }

/-- Not in the window. -/
def Outside (b : Addr) : Prop := b.pml4 ≠ 511

instance (b : Addr) : Decidable (Outside b) := inferInstanceAs (Decidable (_ ≠ _))

/-- **Mapping the page of `a` maps nothing else**, for every content of the frames that are no
tables and every entry the caller fills in. -/
def MapsOne (a : Addr) (user : Bool) (m : Machine) : Prop :=
  ∀ phys, SameTables m phys → ∀ (e : Entry) p m1 m2, e.present = true →
    createPageForCurrent a user (m.withPhys phys) = some (p, m1) →
    modify p (fun _ => e) m1 = some m2 →
    ∀ b, Outside b → b.frame ≠ a.frame → translate m2.phys m2.cr3 b = translate phys m.cr3 b

/-- The tables on the way to `a` are there, and its entry is on the way to no other page. -/
def Ready (a : Addr) (m : Machine) : Prop :=
  ∃ t, walk (next m.phys) m.cr3 a.path = some t ∧
    ∀ b, Outside b → b.frame ≠ a.frame → ¬ Reads (next m.phys) m.cr3 b.indices t a.pt

/-- A space as the memory manager keeps it: it contains itself, its tables are marked as used, and
frame numbers fit the entries. -/
structure Space (m : Machine) : Prop where
  self : next m.phys m.cr3 511 = some m.cr3
  used : ∀ f, Table m f → f ≠ 0 ∧ m.frames.memoryMap.bit f = true
  size : m.frames.maxBlocks ≤ 2 ^ 40

section
variable {m : Machine} {phys : Phys} {a b : Addr} {user : Bool}

/-- A walk looks at entries of tables only. -/
theorem Table.read {f i : Nat} (h : Reads (next m.phys) m.cr3 a.indices f i) : Table m f := by
  obtain ⟨js, ks, he, hw⟩ := h
  have hlen := congrArg List.length he
  have hlt := a.indices_lt
  rw [he] at hlt
  simp only [Addr.indices, List.length_append, List.length_cons, List.length_nil] at hlen
  exact ⟨js, by omega, fun i hi => hlt i (List.mem_append_left _ hi), hw⟩

theorem SameTables.next (h : SameTables m phys) {f i : Nat}
    (hr : Reads (next m.phys) m.cr3 a.indices f i) : Paging.next phys f i = Paging.next m.phys f i := by
  unfold Paging.next
  rw [h f (.read hr)]

theorem SameTables.translate (h : SameTables m phys) (a : Addr) :
    Paging.translate phys m.cr3 a = Paging.translate m.phys m.cr3 a :=
  walk_congr fun _ _ hr => h.next hr

theorem SameTables.walk (h : SameTables m phys) {js ks : List Nat} (ha : a.indices = js ++ ks) :
    Lib.walk (Paging.next phys) m.cr3 js = Lib.walk (Paging.next m.phys) m.cr3 js :=
  walk_congr fun _ _ hr => h.next (a := a) (by rw [ha]; exact hr.append)

theorem Space.window (h : Space m) (hs : SameTables m phys) : Window (m.withPhys phys) m.cr3 := by
  have hr : next phys m.cr3 511 = some m.cr3 := by
    unfold next
    rw [hs m.cr3 ⟨[], by simp, by simp, rfl⟩]
    exact h.self
  exact ⟨hr, hr⟩

/-! ## Nothing to link -/

/-- Where no table is missing the call changes nothing, and the caller fills one entry. -/
theorem Space.fill (h : Space m) (hs : SameTables m phys) {t : Nat}
    (ht : walk (next m.phys) m.cr3 a.path = some t) :
    createPageForCurrent a user (m.withPhys phys) =
        some (entryAt currentPt a.frame, m.withPhys phys) ∧
      ∀ e, modify (entryAt currentPt a.frame) (fun _ => e) (m.withPhys phys) =
        some (m.withPhys (setEntry t a.pt e phys)) := by
  have win := h.window hs
  have hw : walk (next (m.withPhys phys).phys) m.cr3 a.path = some t :=
    (hs.walk (a := a) rfl).trans ht
  have hlink := @linkPath_walk _ 4 0 _ user _ _ hw
  have hl := locate_pt win a
  rw [hw, Option.map_some] at hl
  refine ⟨?_, fun e => ?_⟩
  · rw [createPage_eq win a user, hlink]
  · rw [modify, hl]
    rfl

/-- **An entry that is there and not shared** maps its own page only. -/
theorem Space.mapsOne (h : Space m) (hready : Ready a m) : MapsOne a user m := by
  intro phys hs e p m1 m2 _ hc hm b hb hne
  obtain ⟨t, ht, hun⟩ := hready
  obtain ⟨hcreate, hfill⟩ := @Space.fill _ _ _ user h hs _ ht
  rw [hcreate] at hc
  obtain ⟨rfl, rfl⟩ := Prod.mk.inj (Option.some.inj hc)
  rw [hfill] at hm
  cases hm
  exact walk_setEntry fun hr => hun b hb hne (hr.congr fun _ _ hr => hs.next hr)

/-! ## Something to link, or a shared entry -/

/-- A frame filled with one entry. -/
def paint (n : Nat) (c : Entry) (phys : Phys) : Phys := upd phys n fun _ => c

/-- A present entry that leads to `n`. -/
def entryTo (n : Nat) : Entry := ⟨true, true, true, BitVec.ofNat 40 n, 0⟩

theorem sameTables_paint {n : Nat} {c : Entry} (hn : ¬ Table m n) :
    SameTables m (paint n c m.phys) := fun _ hf => upd_ne _ _ fun h => hn (h ▸ hf)

theorem next_paint {n i : Nat} {c : Entry} :
    next (paint n c phys) n i = if c.present then some c.frame.toNat else none := by
  unfold next paint
  rw [upd_same]

theorem next_entryTo {f i n : Nat} (hn : n < 2 ^ 40) :
    next (setEntry f i (entryTo n) phys) f i = some n := by
  refine next_some.2 ⟨by rw [setEntry_same]; rfl, ?_⟩
  rw [setEntry_same, entryTo, BitVec.toNat_ofNat, Nat.mod_eq_of_lt hn]

/-- What `MapsOne` says where no table is missing. -/
theorem MapsOne.fill (hm : MapsOne a user m) (h : Space m) (hs : SameTables m phys) {t : Nat}
    (ht : walk (next m.phys) m.cr3 a.path = some t) {e : Entry} (he : e.present = true)
    (hb : Outside b) (hne : b.frame ≠ a.frame) :
    translate (setEntry t a.pt e phys) m.cr3 b = translate m.phys m.cr3 b := by
  obtain ⟨hcreate, hfill⟩ := @Space.fill _ _ _ user h hs _ ht
  rw [← hs.translate b]
  exact hm phys hs e _ _ _ he hcreate (hfill e) b hb hne

/-- **A shared entry** maps another page, or takes its mapping away. -/
theorem Space.shared_fails (h : Space m) {t : Nat} (ht : walk (next m.phys) m.cr3 a.path = some t)
    (hb : Outside b) (hne : b.frame ≠ a.frame)
    (hr : Reads (next m.phys) m.cr3 b.indices t a.pt) : ¬ MapsOne a user m := by
  intro hm
  have h0 : ¬ Table m 0 := fun h0 => (h.used 0 h0).1 rfl
  have ht0 : t ≠ 0 := fun he => h0 (he ▸ Table.read hr)
  obtain ⟨js, ks, hsplit, hjs, hfirst⟩ := hr.first
  -- the walk of `b` in a memory with the entry filled and frame 0 painted
  have hwalk : ∀ c n, n < 2 ^ 40 →
      translate (setEntry t a.pt (entryTo n) (paint 0 c m.phys)) m.cr3 b =
        walk (next (setEntry t a.pt (entryTo n) (paint 0 c m.phys))) n ks := by
    intro c n hn
    have hs := sameTables_paint (c := c) h0
    rw [translate, hsplit, walk_append, walk_setEntry fun hj => ?_, hs.walk hsplit, hjs,
      Option.bind_some, walk_cons (next_entryTo hn)]
    exact hfirst (hj.congr fun _ _ hj => hs.next (a := b) (by rw [hsplit]; exact hj.append))
  have hzero : ∀ c n i, next (setEntry t a.pt (entryTo n) (paint 0 c m.phys)) 0 i =
      if c.present then some c.frame.toNat else none := fun c n i => by
    rw [next_setEntry_ne fun he => ht0 he.1.symm, next_paint]
  have hmaps : ∀ c n, n < 2 ^ 40 →
      walk (next (setEntry t a.pt (entryTo n) (paint 0 c m.phys))) n ks =
        translate m.phys m.cr3 b := fun c n hn => by
    rw [← hwalk c n hn]
    exact hm.fill h (sameTables_paint h0) ht rfl hb hne
  have hloop := hmaps (entryTo 0) 0 (by decide)
  rw [walk_stay fun i => hzero _ _ i] at hloop
  cases ks with
  | nil =>
    have hone := hmaps (entryTo 0) 1 (by decide)
    rw [walk_nil, ← hloop] at hone
    cases hone
  | cons k ks =>
    have hnone := hmaps .zero 0 (by decide)
    rw [walk, hzero, ← hloop] at hnone
    cases hnone

/-- Addresses with the same page number have the same indices. -/
theorem Addr.pt_frame (h : b.pt ≠ a.pt) : b.frame ≠ a.frame := by
  unfold Addr.pt Addr.frame at *
  omega

/-- Another page that starts with given indices. -/
theorem Addr.exists_other (a : Addr) {l : List Nat} {i : Nat} (hl : l.length ≤ 2)
    (hlt : ∀ j ∈ l, j < 512) (hi : i < 512) (hhead : (l ++ [i]).head? ≠ some 511) :
    ∃ b ks, Outside b ∧ b.frame ≠ a.frame ∧ b.indices = l ++ i :: ks := by
  have hx : (a.pt + 1) % 512 < 512 := Nat.mod_lt _ (by decide)
  have key : ∀ w x y, w < 512 → x < 512 → y < 512 → w ≠ 511 →
      ∃ b, Outside b ∧ b.frame ≠ a.frame ∧ b.indices = [w, x, y, (a.pt + 1) % 512] := by
    intro w x y hw hx' hy h
    have hb := Addr.indices_ofIndices hw hx' hy hx
    refine ⟨_, ?_, ?_, hb⟩
    · exact fun h' => h ((List.cons.inj hb).1.symm.trans h')
    · have hpt : (Addr.ofIndices w x y ((a.pt + 1) % 512)).pt = (a.pt + 1) % 512 := by
        simp only [Addr.indices, List.cons.injEq, and_true] at hb
        exact hb.2.2.2
      have := a.index_lt.2.2.2
      exact Addr.pt_frame (by omega)
  rcases l with _ | ⟨p, _ | ⟨q, _ | ⟨x, l⟩⟩⟩
  · obtain ⟨b, h1, h2, h3⟩ := key i _ _ hi hx hx (by simpa using hhead)
    exact ⟨b, _, h1, h2, h3⟩
  · obtain ⟨b, h1, h2, h3⟩ := key p i _ (hlt p (by simp)) hi hx (by simpa using hhead)
    exact ⟨b, _, h1, h2, h3⟩
  · obtain ⟨b, h1, h2, h3⟩ := key p q i (hlt p (by simp)) (hlt q (by simp)) hi
      (by simpa using hhead)
    exact ⟨b, _, h1, h2, h3⟩
  · simp at hl

/-- The frame a new table gets is no table yet. -/
theorem Space.fresh (h : Space m) : ∃ n, n < 2 ^ 40 ∧ ¬ Table m n ∧
    (memAllocBlock m.frames).1 / 0x1000 = n := by
  rcases allocBlock_spec m.frames with h0 | ⟨n, -, hlt, hbit, haddr, -⟩
  · exact ⟨0, by decide, fun ht => (h.used 0 ht).1 rfl, by rw [h0, Nat.zero_div]⟩
  · refine ⟨n, Nat.lt_of_lt_of_le hlt h.size, fun ht => ?_, by
      rw [haddr]
      exact Nat.mul_div_cancel _ (by decide)⟩
    have := (h.used n ht).2
    rw [hbit] at this
    cases this

/-- Linking the first missing table on a path, when its frame is full of entries that lead back to
it. -/
theorem linkPath_full {l q f g i n : Nat} {js ks : List Nat}
    (hjs : walk (next m.phys) f js = some g)
    (hlink : ∀ e, next (linkAt user e g i m).phys g i = some n)
    (hstay : ∀ e k, next (linkAt user e g i m).phys n k = some n) :
    ∃ e, linkPath user l q f (js ++ i :: ks) m = linkAt user e g i m := by
  obtain ⟨l', q', h⟩ := @linkPath_append m l q f user (i :: ks) js g hjs
  refine ⟨tableEntry (l' - 1) (q' * 512 + i), h.trans ?_⟩
  rw [linkPath]
  refine linkPath_walk (g := n) ?_
  rw [show target _ g i = n from (next_some.1 (hlink _)).2]
  exact walk_stay (hstay _)

/-- **A missing table** makes mappings out of what its frame held. -/
theorem Space.missing_fails (h : Space m) (hw : walk (next m.phys) m.cr3 a.path = none) :
    ¬ MapsOne a user m := by
  intro hm
  obtain ⟨js, i, ks, g, hpath, hjs, hnone⟩ := walk_none hw
  obtain ⟨n, hn, hfresh, hframe⟩ := h.fresh
  -- the new table is full of entries that lead to itself
  have hs := sameTables_paint (c := entryTo n) hfresh
  have hindices : a.indices = js ++ (i :: ks ++ [a.pt]) := by
    rw [← List.append_assoc, ← hpath]
    rfl
  have hg : Table m g := Table.read (a := a) ⟨js, ks ++ [a.pt], hindices, hjs⟩
  have hgn : n ≠ g := fun he => hfresh (he ▸ hg)
  have hjs' := (hs.walk hindices).trans hjs
  have hnone' : next (paint n (entryTo n) m.phys) g i = none := by
    unfold next
    rw [hs g hg]
    exact hnone
  obtain ⟨m', hm'⟩ : ∃ m', m' = m.withPhys (paint n (entryTo n) m.phys) := ⟨_, rfl⟩
  have hphys : m'.phys = paint n (entryTo n) m.phys := by rw [hm']; rfl
  have hcr3 : m'.cr3 = m.cr3 := by rw [hm']; rfl
  have hlink : ∀ e, (linkAt user e g i m').phys = setEntry g i
      ⟨true, true, user, BitVec.ofNat 40 n, (m'.phys g i).rest⟩ m'.phys := fun e => by
    unfold linkAt
    rw [hphys, if_neg (by rw [next_none.1 hnone']; decide), hm']
    dsimp only [Machine.withPhys]
    rw [hframe]
  have hgi : ∀ e, next (linkAt user e g i m').phys g i = some n := fun e => by
    rw [hlink]
    refine next_some.2 ⟨by rw [setEntry_same], ?_⟩
    rw [setEntry_same, BitVec.toNat_ofNat, Nat.mod_eq_of_lt hn]
  have hstay : ∀ e k, next (linkAt user e g i m').phys n k = some n := fun e k => by
    rw [hlink, next_setEntry_ne fun he => hgn he.1, hphys, next_paint, entryTo, if_pos rfl,
      BitVec.toNat_ofNat, Nat.mod_eq_of_lt hn]
  obtain ⟨e, hM⟩ : ∃ e, linkPath user 4 0 m.cr3 a.path m' = linkAt user e g i m' := by
    rw [hpath]
    exact linkPath_full (by rw [hphys]; exact hjs') hgi hstay
  have hgi := hgi e
  have hstay := hstay e
  have win' : Window m' m.cr3 := hm' ▸ h.window hs
  have win : Window (linkAt user e g i m') m.cr3 := win'.linkAt user e g i
  have hjsM : walk (next (linkAt user e g i m').phys) m.cr3 js = some g :=
    walk_mono linkAt_mono (by rw [hphys]; exact hjs')
  have hl := locate_pt win a
  rw [hpath, walk_append, hjsM, Option.bind_some, walk_cons hgi, walk_stay hstay,
    Option.map_some] at hl
  -- filling the entry with the same frame changes no edge
  have hedge : next (setEntry n a.pt (entryTo n) (linkAt user e g i m').phys) =
      next (linkAt user e g i m').phys := by
    funext v j
    by_cases he : v = n ∧ j = a.pt
    · obtain ⟨rfl, rfl⟩ := he
      rw [next_entryTo hn, hstay]
    · exact next_setEntry_ne he
  -- another page on the way through the new table
  obtain ⟨b, ks', hb, hne, hbi⟩ : ∃ b ks', Outside b ∧ b.frame ≠ a.frame ∧
      b.indices = js.dropWhile (· = 511) ++ i :: ks' := by
    have hlen := congrArg List.length hpath
    simp only [Addr.path, List.length_append, List.length_cons, List.length_nil] at hlen
    have hlt := a.indices_lt
    rw [hindices] at hlt
    have hsub := List.dropWhile_sublist (p := fun j => decide (j = 511)) (l := js)
    refine a.exists_other (Nat.le_trans hsub.length_le (by omega))
      (fun j hj => hlt j (List.mem_append_left _ (hsub.subset hj))) (hlt i (by simp)) fun hhead => ?_
    have hstop := List.head?_dropWhile_not (fun j => decide (j = 511)) js
    cases hd : js.dropWhile (· = 511) with
    | nil =>
      -- the root has entry 511
      have hroot := @walk_dropWhile _ _ _ _ _ js _ win.loop
      rw [hd, hjsM] at hroot
      obtain rfl : m.cr3 = g := Option.some.inj hroot
      obtain rfl : i = 511 := by simpa [hd] using hhead
      rw [← hphys, win'.loop] at hnone'
      cases hnone'
    | cons x xs =>
      rw [hd] at hhead hstop
      simp_all
  have hc := createPage_eq win' a user
  rw [hM, hm'] at hc
  have hmod : modify (entryAt currentPt a.frame) (fun _ => entryTo n) (linkAt user e g i m') =
      some ((linkAt user e g i m').withPhys
        (setEntry n a.pt (entryTo n) (linkAt user e g i m').phys)) := by
    rw [modify, hl]
    rfl
  rw [hm'] at hmod
  have hsame := hm _ hs (entryTo n) _ _ _ rfl hc hmod b hb hne
  rw [← hm'] at hsame
  have hafter : translate (setEntry n a.pt (entryTo n) (linkAt user e g i m').phys) m.cr3 b =
      some n := by
    rw [translate, hbi, hedge, walk_append, walk_dropWhile win.loop, hjsM, Option.bind_some,
      walk_cons hgi, walk_stay hstay]
  have hbefore : translate (paint n (entryTo n) m.phys) m.cr3 b = none := by
    have hloop := win'.loop
    rw [hphys] at hloop
    rw [translate, hbi, walk_append, walk_dropWhile hloop, hjs', Option.bind_some, walk, hnone',
      Option.bind_none]
  have hcr3 : (linkAt user e g i m').cr3 = m.cr3 := by rw [linkAt_cr3, hm']; rfl
  rw [hbefore] at hsame
  dsimp only [Machine.withPhys] at hsame
  rw [hcr3, hafter] at hsame
  cases hsame

end

/-- **Mapping one page maps nothing else** exactly when there is nothing to link and the entry is
not shared. -/
theorem maps_one_iff (a : Addr) (user : Bool) (m : Machine) (h : Space m) :
    MapsOne a user m ↔ Ready a m := by
  refine ⟨fun hm => ?_, h.mapsOne⟩
  cases hw : walk (next m.phys) m.cr3 a.path with
  | none => exact absurd hm (h.missing_fails hw)
  | some t => exact ⟨t, hw, fun b hb hne hr => h.shared_fails hw hb hne hr hm⟩

/-! ## A recycled frame -/

/-- Tables in the frames 1, 2 and 3, none yet for the first 2 MB of the kernel. Frame 5 is free, and
its second word looks like an entry. -/
def recycled : Machine where
  phys := fun f i =>
    if f = 1 ∧ i = 511 then entryTo 1
    else if f = 1 ∧ i = 0 then entryTo 2
    else if f = 2 ∧ i = 3 then entryTo 3
    else if f = 5 ∧ i = 1 then entryTo 0x77
    else .zero
  cr3 := 1
  frames := ⟨63, 64, fun _ => ~~~(1 <<< 5)⟩
  nextBlock := 0xC0000
  log := []

theorem space_recycled : Space recycled := by
  refine ⟨by decide, fun f hf => ?_, by decide⟩
  obtain ⟨is, -, -, hw⟩ := hf
  have hclosed : f = 1 ∨ f = 2 ∨ f = 3 := by
    refine walk_closed (S := fun f => f = 1 ∨ f = 2 ∨ f = 3) (fun v i w hv hn => ?_) (.inl rfl) hw
    have hcases : recycled.phys v i = entryTo 1 ∨ recycled.phys v i = entryTo 2 ∨
        recycled.phys v i = entryTo 3 ∨ recycled.phys v i = .zero := by
      unfold recycled
      dsimp only
      split
      · exact .inl rfl
      split
      · exact .inr (.inl rfl)
      split
      · exact .inr (.inr (.inl rfl))
      split
      · omega
      · exact .inr (.inr (.inr rfl))
    obtain ⟨hp, rfl⟩ := next_some.1 hn
    rcases hcases with he | he | he | he <;> rw [he] at hp ⊢
    · exact .inl rfl
    · exact .inr (.inl rfl)
    · exact .inr (.inr rfl)
    · cases hp
  rcases hclosed with rfl | rfl | rfl <;> decide

/-- The theorem on these tables: the page at `0xC0000000` has no table yet. -/
theorem maps_one_iff_recycled :
    MapsOne 0xC0000000 false recycled ↔ Ready 0xC0000000 recycled :=
  maps_one_iff _ _ _ space_recycled

/-- **Mapping `0xC0000000` maps `0xC0001000` too**: the new table is frame 5 as it was. -/
theorem maps_another_page :
    ∃ m a e p m1 m2 b, next m.phys m.cr3 511 = some m.cr3 ∧ e.present = true ∧
      createPageForCurrent a false m = some (p, m1) ∧ modify p (fun _ => e) m1 = some m2 ∧
      Outside b ∧ b.frame ≠ a.frame ∧ translate m2.phys m2.cr3 b ≠ translate m.phys m.cr3 b := by
  have hrun : ((createPageForCurrent 0xC0000000 false recycled).bind fun r =>
      (modify r.1 (fun _ => entryTo 0x80) r.2).map fun m => translate m.phys m.cr3 0xC0001000) =
      some (some 0x77) := by
    decide
  obtain ⟨⟨p, m1⟩, hc, hrun⟩ := Option.bind_eq_some_iff.1 hrun
  obtain ⟨m2, hm, hb⟩ := Option.map_eq_some_iff.1 hrun
  refine ⟨recycled, 0xC0000000, entryTo 0x80, p, m1, m2, 0xC0001000, by decide, rfl, hc, hm,
    by decide, by decide, ?_⟩
  rw [hb]
  decide

end Paging
