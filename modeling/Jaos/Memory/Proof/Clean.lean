import Jaos.Memory.Proof.History

/-!
# `clean_user_space` in a forest of tables

`Cleaned s m0 m`: the machine `m` is `m0` with some user pages unmapped and their frames freed. The
innermost body keeps it (`Cleaned.page`), so the three loops do (`Good.cleanUserSpace`). The tables
and all other mappings stay. The addresses of the frames must fit 40 bits (`FreesLow`), or the bit of
another frame is cleared. Where live blocks must keep their frames, none of the pages may be mapped to
the frame of a live block (`FreesNoBlock`).
-/

namespace Paging

open Lib Memman

/-- Pages from here on are not cleaned: 2 GB. -/
def cleanEnd : Nat := 0x80000

structure Cleaned (s : Shape) (m0 m : Machine) : Prop where
  good : Good s m
  keeps : Keeps s (· < cleanEnd) (next m0.phys) (next m.phys)
  edges : ∀ x j n, next m.phys x j = some n → next m0.phys x j = some n
  hands : ∀ n, s.held n → m.phys n = m0.phys n
  cr3 : m.cr3 = m0.cr3
  log : FreesOnly m0.log m.log
  nextBlock : m.nextBlock = m0.nextBlock

/-- Pages that `clean_user_space` frees lie below 1 TB. -/
def FreesLow (m : Machine) : Prop :=
  ∀ a : Addr, a.frame < cleanEnd → a.pd ≠ 511 → a.pt < 510 → ∀ n,
    translate m.phys m.cr3 a = some n → n < 2 ^ 28

/-- No page that `clean_user_space` frees shares its frame with a live block. -/
def FreesNoBlock (s : Shape) (m : Machine) : Prop :=
  ∀ a : Addr, a.frame < cleanEnd → a.pd ≠ 511 → a.pt < 510 → ∀ n,
    translate m.phys m.cr3 a = some n → ∀ x q j, s.place x = some q → q.level = 1 → j < 512 →
      s.live (q.sub j) → next m.phys x j ≠ some n

section
variable {s : Shape} {m0 m m' : Machine} {i z y : Nat}

theorem frame_ofIndices (hi : i < 512) (hz : z < 512) (hy : y < 512) :
    (Addr.ofIndices 0 i z y).frame = ((0 * 512 + i) * 512 + z) * 512 + y := by
  unfold Addr.frame Addr.ofIndices
  omega

/-- `get_page_entry` is the entry of the page with these indices. -/
theorem getPageEntry_eq (hi : i < 512) (hz : z < 512) (hy : y < 512) :
    getPageEntry 0 i z y = entryAt currentPt (Addr.ofIndices 0 i z y).frame := by
  rw [getPageEntry, frame_ofIndices hi hz hy]

/-- The entry of a page as the window shows it. -/
theorem load_page {r : Nat} {a : Addr} {e : Entry} (h : Window m r)
    (hload : load (entryAt currentPt a.frame) m = some e) :
    ∃ t, walk (next m.phys) r a.path = some t ∧ e = m.phys t a.pt ∧
      locate (entryAt currentPt a.frame) m = some (t, a.pt) := by
  obtain ⟨l, hl, he⟩ := Option.map_eq_some_iff.1 hload
  have hloc := hl
  rw [locate_pt h] at hl
  obtain ⟨t, ht, rfl⟩ := Option.map_eq_some_iff.1 hl
  exact ⟨t, ht, he.symm, hloc⟩

theorem Cleaned.current (h : Cleaned s m0 m) (h0 : Current s m0 m0.cr3) : Current s m m.cr3 := by
  have hself := h.keeps _ _ 511 _ h0.place (.inl (show 2 ≤ 4 by decide)) h0.window.loop
  rw [h.cr3]
  exact ⟨h0.place, ⟨by rwa [h.cr3], hself⟩, .inl h.cr3⟩

/-- **One page unmapped**, or left alone. -/
theorem Cleaned.page (h : Cleaned s m0 m) (h0 : Current s m0 m0.cr3) (hi : i < 3) (hz : z < 512)
    (hy : y < 512) (hlive : ∀ q, s.live q → cleanEnd ≤ q) (hlow : FreesLow m0)
    (hfree : s.backed → FreesNoBlock s m0)
    (hrun : cleanPage i z y m = some m') : Cleaned s m0 m' := by
  have hcur := h.current h0
  unfold cleanPage at hrun
  rw [getPageEntry_eq (by omega) hz hy] at hrun
  have hind := Addr.indices_ofIndices (show 0 < 512 by decide) (show i < 512 by omega) hz hy
  have hframe := frame_ofIndices (i := i) (z := z) (y := y) (by omega) hz hy
  generalize Addr.ofIndices 0 i z y = a at hrun hind hframe
  obtain ⟨ha4, ha3, ha2, ha1⟩ : a.pml4 = 0 ∧ a.pdp = i ∧ a.pd = z ∧ a.pt = y := by
    simpa only [Addr.indices, List.cons.injEq, and_true] using hind
  obtain ⟨e, he, hrun⟩ := Option.bind_eq_some_iff.1 hrun
  obtain ⟨t, ht, rfl, hloc⟩ := load_page hcur.window he
  split at hrun
  · rename_i hc
    obtain ⟨hp, hy', hz', hi'⟩ := hc
    obtain ⟨hplace, -⟩ :=
      h.good.walk_path hcur.place (by rw [ha4]; decide) (List.append_nil _).symm ht
    have hlevel : ((Place.root m.cr3).along a.path).level = 1 := by rw [along_path]
    have hend : a.frame < cleanEnd := by
      rw [hframe, cleanEnd]
      omega
    have hnext : next m.phys t a.pt = some (m.phys t a.pt).frame.toNat := next_some.2 ⟨hp, rfl⟩
    have haddr : (m.phys t a.pt).address = (m.phys t a.pt).frame.toNat * 0x1000 % 2 ^ 40 := rfl
    rw [haddr] at hrun
    generalize (m.phys t a.pt).frame.toNat = n at hrun hnext
    have hmaps : s.Maps (next m.phys) t a.pt n :=
      ⟨_, hplace, hlevel, by omega, fun hl => by
        have := hlive _ hl
        rw [sub_path] at this
        omega, hnext⟩
    have htr : translate m0.phys m0.cr3 a = some n := by
      rw [← h.cr3]
      refine walk_mono h.edges ?_
      exact (@walk_snoc _ _ _ _ _ a.path).trans (by rw [ht, Option.bind_some, hnext])
    have hn := hlow a hend (by omega) (by omega) n htr
    rw [show n * 0x1000 % 2 ^ 40 = n * 0x1000 by omega] at hrun
    obtain ⟨hmax, hbit⟩ := freeBlock_spec n m.frames
    generalize memFreeBlock (n * 0x1000) m.frames = frames at hrun hmax hbit
    obtain ⟨l, hl, rfl⟩ := Option.map_eq_some_iff.1 hrun
    rw [locate_frames, hloc] at hl
    obtain rfl := Option.some.inj hl
    have hzero : next (setEntry t a.pt .zero m.phys) t a.pt = none :=
      next_none.2 (by rw [setEntry_same]; rfl)
    have hkeep : Keeps s (· < cleanEnd) (next m.phys) (next (setEntry t a.pt .zero m.phys)) :=
      .page hplace hlevel (by rwa [sub_path]) fun x j h => next_setEntry_ne h
    refine ⟨⟨?_, h.good.linked.keep (.refl s) hkeep fun f p hp hnone _ => ?_, hmax ▸ h.good.size,
        (PlainTables.set h.good.plain fun _ _ => Entry.plain_zero).keep (List.suffix_cons _ _)
          fun _ _ _ _ h => h⟩,
      h.keeps.trans (.refl s) hkeep, fun x j k hk => h.edges x j k ?_, fun k hk => ?_, h.cr3,
      h.log.cons _, h.nextBlock⟩
    · refine h.good.forest.unmap hmaps (fun hb x q j hq h1 hj hl hn => ?_) hzero
        (fun x j h => next_setEntry_ne h) fun k hk hu => ?_
      · exact hfree hb a hend (by omega) (by omega) n htr x q j hq h1 hj hl (h.edges x j n hn)
      · exact (hbit k hk).trans hu
    · exact absurd (hnone.symm.trans hp) (by simp)
    · by_cases hx : x = t ∧ j = a.pt
      · obtain ⟨rfl, rfl⟩ := hx
        rw [show next _ x a.pt = none from hzero] at hk
        cases hk
      · rwa [← next_setEntry_ne hx]
    · exact (setEntry_frame (h.good.forest.held_ne hk hplace)).trans (h.hands k hk)
  · cases hrun
    exact h

theorem Cleaned.ifPresent {a : Addr} {body : Machine → Option Machine}
    (hbody : ∀ m, body m = some m' → Cleaned s m0 m → Cleaned s m0 m') (h : Cleaned s m0 m)
    (hrun : ifPresent a body m = some m') : Cleaned s m0 m' := by
  obtain ⟨e, -, hrun⟩ := Option.bind_eq_some_iff.1 hrun
  split at hrun
  · exact hbody m hrun h
  · cases hrun
    exact h

theorem Cleaned.loop {body : Nat → Machine → Option Machine} {k : Nat}
    (hbody : ∀ j m m', j < k → body j m = some m' → Cleaned s m0 m → Cleaned s m0 m')
    (h : Cleaned s m0 m) (hrun : loop body k 0 m = some m') : Cleaned s m0 m' :=
  loop_invariant (P := fun _ m => Cleaned s m0 m)
    (fun j m m' _ hj h hr => hbody j m m' (by omega) hr h) h hrun

/-- **`clean_user_space`** unmaps user pages and frees their frames. -/
theorem Good.cleanUserSpace (G : Good s m) (h : Current s m m.cr3)
    (hlive : ∀ q, s.live q → cleanEnd ≤ q) (hlow : FreesLow m) (hfree : s.backed → FreesNoBlock s m)
    (hrun : cleanUserSpace m = some m') : Cleaned s m m' := by
  refine Cleaned.loop (fun i _ _ hi hr hc => ?_) ⟨G, .refl _ _ _, fun _ _ _ h => h, fun _ _ => rfl,
    rfl, .refl _, rfl⟩ hrun
  refine Cleaned.ifPresent (fun _ hr hc => ?_) hc hr
  refine Cleaned.loop (fun z _ _ hz hr hc => ?_) hc hr
  refine Cleaned.ifPresent (fun _ hr hc => ?_) hc hr
  exact Cleaned.loop (fun y _ _ hy hr hc => hc.page h hi hz hy hlive hlow hfree hr) hc hr

end

end Paging
