import Jaos.Memory.Proof.Clone

/-!
# The tables that `memman_init` builds

The blocks that the frame allocator keeps for the kernel are in hand at the start: the loader's root,
the frames of the image and those of the video memory. `Booting` is the invariant while they are
mapped, through the window of the loader's root; at the end the first space is there
(`boot_steady`).
-/

namespace Paging

open Lib Memman

/-- **While the first tables are built**: the window of the loader's root shows the tables below `r`,
no root but `r` is there, and the frames of `H` are in hand. -/
structure Booting (b : Prop) (r nb : Nat) (H : Nat → Prop) (s : Shape) (m : Machine) : Prop where
  good : Good s m
  place : s.place r = some (.root r)
  window : Window m r
  cr3 : m.cr3 = loaderPml4
  held : ∀ n, n = loaderPml4 ∨ H n → s.held n
  live : ∀ q, ¬ s.live q
  roots : ∀ k, s.place k = some (.root k) → k = r
  nextBlock : m.nextBlock = nb
  noBlocks : blocks m.log = []
  backed : s.backed = b

section
variable {b : Prop} {r nb f : Nat} {H : Nat → Prop} {s : Shape} {m m' : Machine} {a : Addr}

theorem initPage_log (h : initPage a f m = some m') : m.log <:+ m'.log := by
  obtain ⟨⟨p, m1⟩, hc, hw⟩ := Option.bind_eq_some_iff.1 h
  rw [writeFields_log hw]
  exact createPage_log hc

/-- What `memman_init` writes into the entry of a page. -/
theorem initFields_spec {n : Nat} (hn : n < 2 ^ 40) (e : Entry) :
    ([Entry.setFrame n, .setPresent true, .setUser false, .setRw true].foldl
      (fun e g => g e) e).present = true ∧
    ([Entry.setFrame n, .setPresent true, .setUser false, .setRw true].foldl
      (fun e g => g e) e).frame.toNat = n ∧
    ([Entry.setFrame n, .setPresent true, .setUser false, .setRw true].foldl
      (fun e g => g e) e).rest = e.rest :=
  ⟨rfl, (BitVec.toNat_ofNat _ _).trans (Nat.mod_eq_of_lt hn), rfl⟩

/-- **One page of the kernel mapped.** -/
theorem Booting.initPage (B : Booting b r nb H s m) (hf : H f) (hne : f ≠ loaderPml4)
    (hlt : f < 2 ^ 40) (ha : a.pml4 ≠ 511) (h : Paging.initPage a f m = some m')
    (fine : Fine m'.log) :
    ∃ s', Booting b r nb (fun n => n ≠ f ∧ H n) s' m' ∧
      Keeps s (fun _ => True) (next m.phys) (next m'.phys) ∧ s.Le s' ∧
      translate m'.phys r a = some f := by
  obtain ⟨⟨p, m1⟩, hc, hw⟩ := Option.bind_eq_some_iff.1 h
  have hcur : Current s m r :=
    ⟨B.place, B.window, .inr (by rw [B.cr3]; exact B.held _ (.inl rfl))⟩
  obtain ⟨s', G', A, hnb, htr⟩ := B.good.mapPage (T := fun _ => True) hcur (B.held f (.inr hf)) ha
    trivial (initFields_spec hlt) hc hw fine.ok
  have hcur' := hcur.after A
  refine ⟨s'.drop f, ⟨G', hcur'.place, hcur'.window, A.cr3.trans B.cr3, fun n hn => ?_, ?_,
    fun k hk => B.roots k (A.roots k hk), hnb.trans B.nextBlock, A.blocks.trans B.noBlocks,
    A.le.backed.trans B.backed⟩, A.keeps, ⟨A.le.place, A.le.backed⟩, htr⟩
  · rcases hn with rfl | ⟨hn, hh⟩
    · exact ⟨Ne.symm hne, A.held _ (B.held _ (.inl rfl))⟩
    · exact ⟨hn, A.held n (B.held n (.inr hh))⟩
  · intro q hq
    have hq : s'.live q := hq
    rw [A.live] at hq
    exact B.live q hq

/-! ## The new root -/

/-- The forest before there is a table: the blocks kept for the kernel are in hand. -/
def bootShape (b : Prop) (kernelEnd maxBlocks : Nat) : Shape where
  place := fun _ => none
  held := KernelBlock kernelEnd maxBlocks
  live := fun _ => False
  backed := b

theorem bootShape_good {kernelEnd maxBlocks : Nat} (hsize : m.frames.maxBlocks ≤ 2 ^ 40)
    (hmarked : ∀ n, KernelBlock kernelEnd maxBlocks n → m.frames.memoryMap.bit n = true) :
    Good (bootShape b kernelEnd maxBlocks) m := by
  have hnone : ∀ {P : Prop} {f p}, (bootShape b kernelEnd maxBlocks).place f = some p → P := nofun
  have hmaps : ∀ {P : Prop} {f i n}, (bootShape b kernelEnd maxBlocks).Maps (next m.phys) f i n → P :=
    fun ⟨_, hp, _⟩ => hnone hp
  exact ⟨⟨fun _ _ => hnone, fun _ _ => hnone, fun _ _ _ _ => hnone, fun _ _ => hnone, fun _ _ => hnone,
    fun _ _ _ => hmaps, fun _ _ _ _ _ => hmaps, fun n hn => ⟨hmarked n hn, rfl⟩,
    fun _ _ _ _ _ => hnone⟩, fun _ _ => hnone, hsize, fun _ _ _ => hnone⟩

/-- Entry 511 of the loader's root and of the new one. -/
theorem Booting.root {kernelEnd maxBlocks new : Nat} {m1 m2 : Machine}
    (G : Good (bootShape b kernelEnd maxBlocks) m) (hcr3 : m.cr3 = loaderPml4)
    (hlog : blocks m.log = []) (hnew : new = (memAllocBlock m.frames).1 / 0x1000)
    (h1 : m1 = { m with frames := (memAllocBlock m.frames).2, log := .table (getPml4Entry 511) new (m.phys new) :: m.log })
    (h2 : writeLow m1.cr3 511 (selfFields new) m1 = some m2)
    (h3 : writeLow new 511 (selfFields new) m2 = some m') (fine : Fine m'.log) :
    (memAllocBlock m.frames).1 = new * 0x1000 ∧
      ∃ s, Booting b new m.nextBlock (KernelBlock kernelEnd maxBlocks) s m' := by
  unfold writeLow at h2 h3
  split at h2
  case isFalse => cases h2
  split at h3
  case isFalse => cases h3
  obtain rfl := (Option.some.inj h2).symm
  obtain rfl := (Option.some.inj h3).symm
  subst h1
  obtain ⟨hne, hclean⟩ := fine.ok _ List.mem_cons_self
  rcases G.allocBlock with ⟨h0, -⟩ | ⟨n, -, hlt, haddr, -, hheld, G1⟩
  · rw [hnew, h0] at hne
    exact absurd rfl hne
  obtain rfl : new = n := by rw [hnew, haddr, Nat.mul_div_cancel _ (by decide)]
  have hone : new ≠ m.cr3 := fun he => hheld (.inl (by rw [he, hcr3]; decide))
  have hself1 := selfFields_spec hlt (m.phys m.cr3 511)
  have hself2 := selfFields_spec hlt (setEntry m.cr3 511 ((selfFields new).foldl (fun e g => g e)
    (m.phys m.cr3 511)) m.phys new 511)
  dsimp only
  generalize (selfFields new).foldl (fun e g => g e) (m.phys m.cr3 511) = e1 at hself1 hself2 ⊢
  generalize (selfFields new).foldl (fun e g => g e) (setEntry m.cr3 511 e1 m.phys new 511) = e2
    at hself2 ⊢
  have hempty : ∀ i, i < 512 → next (setEntry m.cr3 511 e1 m.phys) new i = none := fun i hi => by
    rw [next_congr (setEntry_frame hone)]
    exact next_none.2 (hclean i hi)
  have F0 : Forest _ (next (setEntry m.cr3 511 e1 m.phys)) _ :=
    G1.forest.scribble fun _ _ => nofun
  have F : Forest _ (next (setEntry new 511 e2 (setEntry m.cr3 511 e1 m.phys))) _ :=
    (F0.adopt (p := .root new) (.inl rfl) hempty (show 1 ≤ 4 ∧ 4 ≤ 4 by decide)
      fun _ => rfl).selfEdge Shape.adopt_same (next_setEntry_same ⟨hself2.1, hself2.2.1⟩) fun x j h =>
        next_setEntry_ne h
  have hplace : ∀ {f p}, (((bootShape b kernelEnd maxBlocks).hold new).adopt new (.root new)).place f =
      some p → f = new ∧ p = .root new := by
    intro f p hp
    by_cases hf : f = new
    · subst hf
      rw [Shape.adopt_same] at hp
      exact ⟨rfl, (Option.some.inj hp).symm⟩
    · rw [Shape.adopt_ne hf] at hp
      cases hp
  have hplain : PlainTables (((bootShape b kernelEnd maxBlocks).hold new).adopt new (.root new))
      (.table (getPml4Entry 511) new (m.phys new) :: m.log) m.phys :=
    PlainTables.adopt (G1.plain.keep (List.suffix_cons _ _) fun _ _ _ _ h => h) fun hall =>
      hall (.table (getPml4Entry 511) new (m.phys new)) List.mem_cons_self
  refine ⟨haddr, _, ⟨F, fun f p hp hlevel => ?_, G1.size,
      (hplain.set fun _ => Entry.plain_of_rest hself1.2.2).set fun _ => Entry.plain_of_rest hself2.2.2⟩,
    Shape.adopt_same, ⟨?_, next_setEntry_same ⟨hself2.1, hself2.2.1⟩⟩, hcr3, fun n hn => ?_, fun _ => id, fun k hk => (hplace hk).1, rfl,
    hlog, rfl⟩
  · obtain ⟨-, rfl⟩ := hplace hp
    exact absurd hlevel (Nat.lt_irrefl 4)
  · dsimp only
    rw [next_setEntry_ne fun h => hone h.1.symm]
    exact next_setEntry_same ⟨hself1.1, hself1.2.1⟩
  · have hk : KernelBlock kernelEnd maxBlocks n := hn.elim (fun h => .inl (by rw [h]; decide)) id
    exact ⟨fun he => hheld (he ▸ hk), .inr hk⟩

/-! ## The kernel's image -/

/-- The frames that `memman_init` still has to map when `i` pages of the image are. -/
def Pending (blocks i n : Nat) : Prop :=
  n = 8 ∨ n = 0xB8 ∨ 0x200 + i ≤ n ∧ n < 0x200 + blocks

theorem image_log {k i : Nat} (h : loop (fun i => Paging.initPage (0xC0000000 + i * 0x1000)
    ((0x200000 + i * 0x1000) / 0x1000)) k i m = some m') : m.log <:+ m'.log :=
  loop_invariant (P := fun _ m1 => m.log <:+ m1.log) (fun _ _ _ _ _ hp hr => hp.trans (initPage_log hr))
    List.suffix_rfl h

/-- The loop on the pages of the image. -/
theorem Booting.image {blocks i k : Nat} (B : Booting b r nb (Pending blocks i) s m)
    (hi : i + k = blocks) (hblocks : blocks ≤ 2 ^ 27)
    (h : loop (fun i => Paging.initPage (0xC0000000 + i * 0x1000) ((0x200000 + i * 0x1000) / 0x1000)) k
      i m = some m') (fine : Fine m'.log) :
    ∃ s', Booting b r nb (Pending blocks blocks) s' m' := by
  induction k generalizing i s m with
  | zero =>
    cases h
    obtain rfl : i = blocks := hi
    exact ⟨s, B⟩
  | succ k ih =>
    obtain ⟨m1, h1, h⟩ := Option.bind_eq_some_iff.1 h
    have hframe : (0x200000 + i * 0x1000) / 0x1000 = 0x200 + i := by omega
    dsimp only at h1
    rw [hframe] at h1
    have ha : Addr.pml4 (0xC0000000 + i * 0x1000) ≠ 511 := by
      unfold Addr.pml4
      omega
    obtain ⟨s1, B1, -, -, -⟩ := B.initPage (.inr (.inr ⟨Nat.le_refl _, by omega⟩))
      (by unfold loaderPml4; omega) (by omega) ha h1 (fine.before (image_log h))
    refine ih (s := s1) ⟨B1.good, B1.place, B1.window, B1.cr3, fun n hn => B1.held n ?_, B1.live,
      B1.roots, B1.nextBlock, B1.noBlocks, B1.backed⟩ (by omega) h
    unfold Pending at hn ⊢
    omega

/-- Fewer frames in hand. -/
theorem Booting.fewer {H' : Nat → Prop} (B : Booting b r nb H s m) (h : ∀ n, H' n → H n) :
    Booting b r nb H' s m :=
  ⟨B.good, B.place, B.window, B.cr3, fun n hn => B.held n (hn.imp id (h n)), B.live, B.roots,
    B.nextBlock, B.noBlocks, B.backed⟩

/-- The number of kernel blocks, and `_kernel_next_block` behind them. -/
theorem kernelBlocks_lt {kernelEnd : Nat} {memoryMap : List MemoryRegion}
    (h : Machine.Boot kernelEnd memoryMap) :
    blocksUsedByKernel kernelEnd (limit memoryMap / memBlockSize) ≤ 2 ^ 27 := by
  have h1 := h.image
  have h2 := h.image32
  have h3 := h.phys52
  dsimp only [kernelStart, memBlockSize] at *
  rw [blocksUsedByKernel_eq h1 (by omega) (by omega)]
  omega

/-- The first space has a table for the gigabyte of the kernel. -/
theorem Booting.space (B : Booting b r nb H s m) {n : Nat} (h : translate m.phys r 0xFFFFF000 = some n) :
    ∃ kpd d, next m.phys r 0 = some d ∧ next m.phys d 3 = some kpd ∧ s.place d = some ⟨3, some r, 0⟩ := by
  obtain ⟨d, hd, h⟩ := Option.bind_eq_some_iff.1 h
  obtain ⟨kpd, hkpd, -⟩ := Option.bind_eq_some_iff.1 h
  have hplace := B.good.forest.table r _ 0 d B.place (show 2 ≤ 4 by decide) (by decide)
    (fun h => absurd h.2 (by decide)) hd
  rw [low_place] at hplace
  exact ⟨kpd, d, hd, hkpd, hplace⟩

/-- **The paging part of `memman_init`.** -/
theorem initPaging_steady {kernelEnd maxBlocks blocks : Nat}
    (G : Good (bootShape b kernelEnd maxBlocks) m) (hcr3 : m.cr3 = loaderPml4)
    (hlog : Paging.blocks m.log = []) (hnb : m.nextBlock = 0xC0000 + blocks)
    (hblocks : blocksUsedByKernel kernelEnd maxBlocks = blocks) (hlt : blocks ≤ 2 ^ 27)
    (h : initPaging blocks m = some m') (fine : Fine m'.log) :
    ∃ kpd s, Steady kpd [] [m'.cr3] s m' ∧ s.backed = b ∧ Paging.blocks m'.log = [] := by
  unfold initPaging at h
  dsimp only at h
  obtain ⟨m2, h2, h⟩ := Option.bind_eq_some_iff.1 h
  obtain ⟨m3, h3, h⟩ := Option.bind_eq_some_iff.1 h
  obtain ⟨m4, h4, h⟩ := Option.bind_eq_some_iff.1 h
  obtain ⟨m5, h5, h⟩ := Option.bind_eq_some_iff.1 h
  obtain ⟨m6, h6, rfl⟩ := Option.map_eq_some_iff.1 h
  have fine6 : Fine m6.log := fine
  have fine5 := fine6.before (initPage_log h6)
  have fine4 := fine5.before (initPage_log h5)
  obtain ⟨haddr, s3, B3⟩ := Booting.root G hcr3 hlog rfl rfl h2 h3 (fine4.before (image_log h4))
  generalize (memAllocBlock m.frames).1 / 0x1000 = new at haddr B3
  rw [haddr] at fine ⊢
  have hpending : ∀ n, Pending blocks 0 n → KernelBlock kernelEnd maxBlocks n := fun n hn => by
    unfold Pending at hn
    unfold KernelBlock
    rw [hblocks]
    omega
  obtain ⟨s4, B4⟩ := (B3.fewer hpending).image (Nat.zero_add _) hlt h4 fine4
  obtain ⟨s5, B5, -, -, htr⟩ := B4.initPage (.inl rfl) (by decide) (by decide) (by decide) h5 fine5
  have hnb5 : m5.nextBlock = 0xC0000 + blocks := B5.nextBlock.trans hnb
  have h4 : Addr.pml4 (m5.nextBlock * 0x1000 % 2 ^ 64) ≠ 511 := by
    rw [hnb5]
    unfold Addr.pml4
    omega
  obtain ⟨s6, B6, hkeep, hle, -⟩ := B5.initPage ⟨by decide, .inr (.inl rfl)⟩ (by decide) (by decide)
    h4 h6 fine6
  obtain ⟨kpd, d, hd, h3, hplace⟩ := B5.space htr
  have hcr3 : (switchPaging (new * 0x1000) { m6 with nextBlock := add64 m6.nextBlock 1 }).cr3 = new :=
    Nat.mul_div_cancel _ (by decide)
  refine ⟨kpd, s6, ⟨⟨B6.good.forest, B6.good.linked, B6.good.size, B6.good.plain⟩, ?_,
    fun q hq => (B6.live q hq).elim, ?_, fun k hk => ?_⟩, B6.backed, B6.noBlocks⟩
  · rw [hcr3]
    exact ⟨B6.place, B6.window.loop, d, hkeep new _ 0 d B5.place (.inl (show 2 ≤ 4 by decide)) hd,
      hkeep d _ 3 kpd hplace (.inl (show 2 ≤ 3 by decide)) h3⟩
  · show add64 m6.nextBlock 1 ≤ windowPage
    rw [B6.nextBlock, hnb, add64_of_lt (by omega)]
    unfold windowPage
    omega
  · rw [hcr3, B6.roots k hk]
    exact List.mem_singleton.2 rfl

/-- **The state that `memman_init` leaves**: the first space, and no block handed out. -/
theorem boot_steady {kernelEnd : Nat} {memoryMap : List MemoryRegion} {memory : Words} {phys : Phys}
    (b : Prop) (hb : Machine.Boot kernelEnd memoryMap)
    (h : Paging.memmanInit kernelEnd memoryMap memory phys loaderPml4 = some m) (fine : Fine m.log) :
    ∃ kpd s, Steady kpd [] [m.cr3] s m ∧ s.backed = b ∧ blocks m.log = [] := by
  have inv := inv_init memory hb.toBoot
  have hlt := kernelBlocks_lt hb
  have hmax := inv.max
  have hsize := hb.phys52
  have hkernel := inv.kernel
  unfold Paging.memmanInit at h
  dsimp only at h hmax hkernel
  rw [hmax] at h
  generalize hb' : limit memoryMap / memBlockSize = maxBlocks at *
  generalize hk' : blocksUsedByKernel kernelEnd maxBlocks = blocks at *
  generalize Memman.memmanInit kernelEnd memoryMap memory = frames at *
  dsimp only [memBlockSize] at hb'
  exact initPaging_steady (bootShape_good (by dsimp only; omega) hkernel) rfl rfl
    (add64_of_lt (by omega)) hk' hlt h fine

end

end Paging
