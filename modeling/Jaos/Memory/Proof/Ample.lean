import Jaos.Memory.Proof.UserMemory

/-!
# A system with room

`Ample c s m`: every page below 3 GB is mapped, and at least `c` frames are there for `mem_alloc_block`.
Then `alloc_page` maps `c` pages (`Ample.allocFrom`), and a copy below 3 GB gets to its end
(`Ample.copy`). `fullSpace` is such a system, with the tables and frames of the program one behind the
other.
-/

namespace Paging

open Lib Memman

/-! ## Frames -/

/-- The next `c` calls of `mem_alloc_block` find a frame. -/
structure Plenty (c : Nat) (f : Frames) : Prop where
  zero : f.memoryMap.bit 0 = true
  count : f.usedBlocks + c ≤ f.maxBlocks
  size : f.maxBlocks < 2 ^ 64
  room : ∃ l, l + c ≤ 64 * (f.maxBlocks / 64) ∧ ∀ n, l ≤ n → n < f.maxBlocks → f.memoryMap.bit n = false

section
variable {c d : Nat} {f : Frames}

theorem Plenty.mono (h : Plenty d f) (hle : c ≤ d) : Plenty c f := by
  obtain ⟨l, hl, hfree⟩ := h.room
  have hcount := h.count
  exact ⟨h.zero, by omega, h.size, l, by omega, hfree⟩

/-- One frame taken. -/
theorem Plenty.alloc (h : Plenty (c + 1) f) :
    (memAllocBlock f).1 ≠ 0 ∧ Plenty c (memAllocBlock f).2 := by
  obtain ⟨l, hl, hfree⟩ := h.room
  have hcount := h.count
  have hsize := h.size
  have hl0 : f.memoryMap.bit l = false := hfree l (Nat.le_refl l) (by omega)
  have hblocks : memFreeBlockCount f ≠ 0 := by
    rw [memFreeBlockCount, sub64_of_le (by omega) hsize]
    omega
  rcases firstFree_first f with ⟨hbit, hlt, hbefore⟩ | ⟨-, hall⟩
  · have hne : mmapFirstFree f ≠ 0 := by
      intro h0
      rw [h0, h.zero] at hbit
      cases hbit
    have hle : mmapFirstFree f ≤ l := by
      refine Nat.le_of_not_lt fun hlt => ?_
      rw [hbefore l hlt] at hl0
      cases hl0
    have hmap : ∀ n, (mmapSet (mmapFirstFree f) f).memoryMap.bit n =
        (decide (n = mmapFirstFree f) || f.memoryMap.bit n) := fun n => Words.bit_set f.memoryMap _ n
    unfold memAllocBlock
    rw [if_neg hblocks]
    dsimp only
    rw [if_neg hne]
    refine ⟨Nat.mul_ne_zero hne (by decide), ?_, ?_, hsize, l + 1, ?_, fun n h1 h2 => ?_⟩
    · rw [hmap, h.zero, Bool.or_true]
    · show add64 f.usedBlocks 1 + c ≤ f.maxBlocks
      rw [add64_of_lt (by omega)]
      omega
    · show l + 1 + c ≤ 64 * (f.maxBlocks / 64)
      omega
    · rw [hmap, hfree n (by omega) h2, decide_eq_false (by omega)]
      rfl
  · rw [hall l (by omega)] at hl0
    cases hl0

end

/-! ## The pages of the program -/

/-- Memory in order, with all pages of the program mapped and `c` frames to spare. -/
structure Ample (c : Nat) (s : Shape) (m : Machine) : Prop where
  space : UserSpace s m
  mapped : ∀ v, User v → ∃ b, loadByte v m = some b
  frames : Plenty c m.frames
  log : ∀ e ∈ m.log, e.Ok

section
variable {c d k i : Nat} {s : Shape} {m : Machine} {v a : Addr}

theorem Ample.mono (h : Ample d s m) (hle : c ≤ d) : Ample c s m :=
  ⟨h.space, h.mapped, h.frames.mono hle, h.log⟩

theorem Ample.translate (h : Ample c s m) (hv : User v) : ∃ n, translate m.phys m.cr3 v = some n := by
  obtain ⟨b, hb⟩ := h.mapped v hv
  cases ht : Paging.translate m.phys m.cr3 v with
  | some n => exact ⟨n, rfl⟩
  | none =>
    rw [loadByte_none ht] at hb
    cases hb

/-- One page mapped anew: its tables are there, so nothing is logged. -/
theorem Ample.mapPage (h : Ample (c + 1) s m) (ha : User a) : (memAllocBlock m.frames).1 ≠ 0 ∧
    ∃ s' m', mapFrame a ((memAllocBlock m.frames).1 / 0x1000)
      { m with frames := (memAllocBlock m.frames).2 } = some m' ∧ Ample c s' m' := by
  obtain ⟨n, hn⟩ := h.translate ha
  obtain ⟨t, ht, -, -⟩ := h.space.maps ha hn
  obtain ⟨hframe, hplenty⟩ := h.frames.alloc
  have hp := (h.space.good.walk_path h.space.current.place ha.lt.1 (List.append_nil _).symm ht).1
  have hreads := h.space.good.not_reads h.space.current ha.lt.1 hp (by rw [along_path])
  have hwindow : Window { m with frames := (memAllocBlock m.frames).2 } m.cr3 :=
    ⟨h.space.current.window.root, h.space.current.window.loop⟩
  have hlink : linkPath true 4 0 m.cr3 a.path { m with frames := (memAllocBlock m.frames).2 } =
      { m with frames := (memAllocBlock m.frames).2 } := linkPath_walk ht
  obtain ⟨m', hm', hlog, hframes⟩ : ∃ m', mapFrame a ((memAllocBlock m.frames).1 / 0x1000)
      { m with frames := (memAllocBlock m.frames).2 } = some m' ∧ m'.log = m.log ∧
        m'.frames = (memAllocBlock m.frames).2 :=
    ⟨_, mapFrame_eq hwindow hlink.symm ht hreads _, rfl, rfl⟩
  obtain ⟨s', -, F⟩ := h.space.mapPage ha hframe hm' (by rw [hlog]; exact h.log)
  refine ⟨hframe, s', m', hm', F.space, fun v hv => ?_, by rwa [hframes], by rw [hlog]; exact h.log⟩
  by_cases hpage : v.frame = a.frame
  · obtain ⟨f, -, hl⟩ := F.stale v hv hpage
    exact ⟨_, hl⟩
  · rw [F.other v hv hpage]
    exact h.mapped v hv

/-- **`alloc_page` maps pages** below 3 GB as long as there are frames. -/
theorem Ample.allocFrom {address : Nat → Addr} (h : Ample (c + k) s m)
    (ha : ∀ j, i ≤ j → j < i + k → (address j).frame < 0xC0000) :
    ∃ s' m', allocFrom address true k i m = some (true, m') ∧ Ample c s' m' := by
  induction k generalizing i s m with
  | zero => exact ⟨s, m, rfl, h⟩
  | succ k ih =>
    have hlt := ha i (Nat.le_refl i) (by omega)
    have hframe : ∀ n : Nat, n < 2 ^ 36 → Addr.frame (n * 4096) = n := by
      intro n hn
      have hdiv : n * 4096 / 2 ^ 12 % 2 ^ 36 = n := by omega
      exact hdiv
    have hpage : ∀ n, (address n).frame = Addr.frame ((address n).frame * 4096) := fun n =>
      (hframe _ (Nat.mod_lt _ (by decide))).symm
    have huser : User ((address i).frame * 4096) := by
      show (address i).frame * 4096 < 0xC0000000
      omega
    obtain ⟨hne, s1, m1, h1, hstep⟩ := @Ample.mapPage (c + k) s m _ h huser
    obtain ⟨s', m', hrun, hm'⟩ := ih (i := i + 1) hstep fun j h1 h2 => ha j (by omega) (by omega)
    refine ⟨s', m', ?_, hm'⟩
    rw [allocFrom_congr hpage] at hrun ⊢
    rw [allocFrom_succ hne, h1, Option.bind_some, hrun]

/-- One byte written. -/
theorem Ample.storeByte {b : UInt8} (h : Ample c s m) (hv : User v) :
    ∃ m', storeByte v b m = some m' ∧ Ample c s m' := by
  obtain ⟨n, hn⟩ := h.translate hv
  have hstore : Paging.storeByte v b m = some (setByteIn n v b m) := by
    rw [Paging.storeByte, modify, locate_some hn]
    rfl
  have C := h.space.storeByte hv hstore
  refine ⟨_, hstore, C.space, fun w hw => ?_, h.frames, h.log⟩
  rw [C.byte w hw]
  split
  · exact ⟨b, rfl⟩
  · exact h.mapped w hw

/-- **A copy** below 3 GB. -/
theorem Ample.copy {dest : Nat} {src : Nat → UInt8} (h : Ample c s m)
    (hlow : ∀ j, j < k → dest + j < 0xC0000000) :
    ∃ m', loop (fun i => Paging.storeByte (add64 dest i) (src i)) k 0 m = some m' ∧ Ample c s m' := by
  refine loop_total (P := fun _ m => Ample c s m) (fun j m1 _ hj h1 => ?_) h
  exact h1.storeByte (user_add64 (hlow j (by omega))).2

end

/-! ## A full system -/

/-- The tables and pages of `fullSpace`: the root is frame 1, the tables of level 2 follow it, those of
level 1 are the frames from 8 on, the pages those from `0x1000` on. -/
def fullNext (f i : Nat) : Option Nat :=
  if 512 ≤ i then none
  else if f = 1 then if i = 511 then some 1 else if i = 0 then some 2 else none
  else if f = 2 then if i < 3 then some (3 + i) else none
  else if 3 ≤ f ∧ f < 6 then some (8 + ((f - 3) * 512 + i))
  else if 8 ≤ f ∧ f < 1544 then some (0x1000 + ((f - 8) * 512 + i))
  else none

/-- The places of its tables. -/
def fullShape : Shape where
  place := fun f =>
    if f = 1 then some (.root 1)
    else if f = 2 then some ⟨3, some 1, 0⟩
    else if 3 ≤ f ∧ f < 6 then some ⟨2, some 1, f - 3⟩
    else if 8 ≤ f ∧ f < 1544 then some ⟨1, some 1, f - 8⟩
    else none
  held := fun _ => False
  live := fun _ => False
  backed := False

/-- A system with all pages of the program, whose first `2 ^ 21` frames are in use. -/
def fullSpace : Machine where
  phys := fun f i => (fullNext f i).elim .zero fun n => ⟨true, true, true, BitVec.ofNat 40 n, 0⟩
  cr3 := 1
  frames := ⟨2 ^ 21, 2 ^ 37, fun i => if i < 2 ^ 15 then BitVec.allOnes 64 else 0⟩
  nextBlock := 0xC0100
  log := []

section
variable {f i n c : Nat} {p : Place}

theorem fullNext_cases (h : fullNext f i = some n) : i < 512 ∧
    (f = 1 ∧ i = 511 ∧ n = 1 ∨ f = 1 ∧ i = 0 ∧ n = 2 ∨ f = 2 ∧ i < 3 ∧ n = 3 + i ∨
      (3 ≤ f ∧ f < 6) ∧ n = 8 + ((f - 3) * 512 + i) ∨
      (8 ≤ f ∧ f < 1544) ∧ n = 0x1000 + ((f - 8) * 512 + i)) := by
  unfold fullNext at h
  split at h
  · cases h
  refine ⟨by omega, ?_⟩
  split at h
  · split at h
    · cases h
      exact .inl ⟨‹_›, ‹_›, rfl⟩
    · split at h
      · cases h
        exact .inr (.inl ⟨‹_›, ‹_›, rfl⟩)
      · cases h
  split at h
  · split at h
    · cases h
      exact .inr (.inr (.inl ⟨‹_›, ‹_›, rfl⟩))
    · cases h
  split at h
  · cases h
    exact .inr (.inr (.inr (.inl ⟨‹_›, rfl⟩)))
  split at h
  · cases h
    exact .inr (.inr (.inr (.inr ⟨‹_›, rfl⟩)))
  · cases h

theorem next_fullSpace : next fullSpace.phys = fullNext := by
  funext f i
  have hphys : fullSpace.phys f i =
      (fullNext f i).elim .zero fun n => ⟨true, true, true, BitVec.ofNat 40 n, 0⟩ := rfl
  unfold next
  rw [hphys]
  rcases h : fullNext f i with _ | n
  · rfl
  · obtain ⟨hi, hcases⟩ := fullNext_cases h
    have hlt : n < 2 ^ 40 := by omega
    show some (BitVec.ofNat 40 n).toNat = some n
    rw [BitVec.toNat_ofNat, Nat.mod_eq_of_lt hlt]

theorem bit_fullSpace (n : Nat) : fullSpace.frames.memoryMap.bit n = decide (n < 2 ^ 21) := by
  unfold fullSpace Words.bit
  dsimp only
  by_cases h : n < 2 ^ 21
  · rw [if_pos (by omega), decide_eq_true h, BitVec.getLsbD_allOnes,
      decide_eq_true (Nat.mod_lt n (by decide))]
  · rw [if_neg (by omega), decide_eq_false h]
    exact BitVec.getLsbD_zero

theorem fullShape_cases (h : fullShape.place f = some p) : f = 1 ∧ p = .root 1 ∨
    f = 2 ∧ p = ⟨3, some 1, 0⟩ ∨ (3 ≤ f ∧ f < 6) ∧ p = ⟨2, some 1, f - 3⟩ ∨
      (8 ≤ f ∧ f < 1544) ∧ p = ⟨1, some 1, f - 8⟩ := by
  unfold fullShape at h
  dsimp only at h
  split at h
  · exact .inl ⟨‹_›, (Option.some.inj h).symm⟩
  split at h
  · exact .inr (.inl ⟨‹_›, (Option.some.inj h).symm⟩)
  split at h
  · exact .inr (.inr (.inl ⟨‹_›, (Option.some.inj h).symm⟩))
  split at h
  · exact .inr (.inr (.inr ⟨‹_›, (Option.some.inj h).symm⟩))
  · cases h

theorem fullShape_two (h : 3 ≤ f ∧ f < 6) : fullShape.place f = some ⟨2, some 1, f - 3⟩ := by
  unfold fullShape
  dsimp only
  rw [if_neg (by omega), if_neg (by omega), if_pos h]

theorem fullShape_one (h : 8 ≤ f ∧ f < 1544) : fullShape.place f = some ⟨1, some 1, f - 8⟩ := by
  unfold fullShape
  dsimp only
  rw [if_neg (by omega), if_neg (by omega), if_neg (by omega), if_pos h]

theorem fullShape_none (h : 1544 ≤ f) : fullShape.place f = none := by
  unfold fullShape
  dsimp only
  rw [if_neg (by omega), if_neg (by omega), if_neg (by omega), if_neg (by omega)]

/-- The pages of a table of level 1. -/
theorem fullShape_maps (h : fullShape.Maps fullNext f i n) :
    (8 ≤ f ∧ f < 1544) ∧ i < 512 ∧ n = 0x1000 + ((f - 8) * 512 + i) := by
  obtain ⟨p, hp, h1, hi, -, hn⟩ := h
  obtain ⟨-, hcases⟩ := fullNext_cases hn
  rcases fullShape_cases hp with ⟨rfl, rfl⟩ | ⟨rfl, rfl⟩ | ⟨-, rfl⟩ | ⟨hf, rfl⟩
  · cases h1
  · cases h1
  · cases h1
  · exact ⟨hf, hi, by omega⟩

theorem child_two {o : Option Nat} {r : Nat} : (Place.mk 2 o r).child i = ⟨1, o, r * 512 + i⟩ := by
  have hlevel : ¬ (2 = 3 ∧ (Place.mk 2 o r).sub i = 3) := fun h => absurd h.1 (by decide)
  exact congrArg (Place.mk 1 · (r * 512 + i)) (if_neg hlevel)

theorem fullSpace_forest :
    Forest fullShape (next fullSpace.phys) fullSpace.frames.memoryMap.bit := by
  rw [next_fullSpace]
  refine ⟨fun f p hp => ?_, fun f p hp h4 => ?_, fun f p i n hp h2 hi hs hn => ?_,
    fun f n hp hn => ?_, fun f p hp => ?_, fun f i n hm => ?_, fun f i f' i' n hm hm' => ?_,
    fun n hn => hn.elim, fun hb => hb.elim⟩
  · rcases fullShape_cases hp with ⟨-, rfl⟩ | ⟨-, rfl⟩ | ⟨-, rfl⟩ | ⟨-, rfl⟩
    · exact ⟨by decide, by decide⟩
    · exact ⟨by decide, by decide⟩
    · exact ⟨show 1 ≤ 2 by decide, show 2 ≤ 4 by decide⟩
    · exact ⟨show 1 ≤ 1 by decide, show 1 ≤ 4 by decide⟩
  · rcases fullShape_cases hp with ⟨rfl, rfl⟩ | ⟨-, rfl⟩ | ⟨-, rfl⟩ | ⟨-, rfl⟩
    · rfl
    · cases h4
    · cases h4
    · cases h4
  · obtain ⟨-, hcases⟩ := fullNext_cases hn
    rcases fullShape_cases hp with ⟨rfl, rfl⟩ | ⟨rfl, rfl⟩ | ⟨hf, rfl⟩ | ⟨-, rfl⟩
    · have hi0 : i = 0 ∧ n = 2 := by
        have hne : i ≠ 511 := fun he => hs ⟨rfl, he⟩
        omega
      obtain ⟨rfl, rfl⟩ := hi0
      rfl
    · have hchild : (Place.mk 3 (some 1) 0).child i = ⟨2, some 1, 3 + i - 3⟩ := by
        have hi3 : i < 3 := by omega
        unfold Place.child Place.sub
        rw [if_neg (by omega)]
        simp
      have hn3 : n = 3 + i ∧ i < 3 := by omega
      rw [hchild, hn3.1]
      exact fullShape_two (by omega)
    · have hchild : (Place.mk 2 (some 1) (f - 3)).child i =
          ⟨1, some 1, 8 + ((f - 3) * 512 + i) - 8⟩ := by
        rw [child_two, Nat.add_sub_cancel_left]
      have hn8 : n = 8 + ((f - 3) * 512 + i) := by omega
      rw [hchild, hn8]
      exact fullShape_one (by omega)
    · exact absurd h2 (show ¬ 2 ≤ 1 by decide)
  · obtain ⟨-, hcases⟩ := fullNext_cases hn
    rcases fullShape_cases hp with ⟨rfl, -⟩ | ⟨-, h⟩ | ⟨-, h⟩ | ⟨-, h⟩
    · omega
    · cases h
    · cases h
    · cases h
  · rw [bit_fullSpace]
    have := fullShape_cases hp
    exact decide_eq_true (by omega)
  · obtain ⟨hf, hi, rfl⟩ := fullShape_maps hm
    rw [bit_fullSpace]
    exact ⟨decide_eq_true (by omega), fullShape_none (by omega), fun h => h⟩
  · obtain ⟨hf, hi, rfl⟩ := fullShape_maps hm
    obtain ⟨hf', hi', he⟩ := fullShape_maps hm'
    omega

theorem fullSpace_linked : Linked fullShape (next fullSpace.phys) := by
  rw [next_fullSpace]
  intro f p hp hlevel
  rcases fullShape_cases hp with ⟨rfl, rfl⟩ | ⟨rfl, rfl⟩ | ⟨hf, rfl⟩ | ⟨hf, rfl⟩
  · exact absurd hlevel (by decide)
  · exact ⟨1, .root 1, 0, rfl, by decide, by decide, by decide, rfl, rfl⟩
  · refine ⟨2, ⟨3, some 1, 0⟩, f - 3, rfl, by decide, by omega, fun h => absurd h.1 (by decide), ?_, ?_⟩
    · unfold Place.child Place.sub
      rw [if_neg (by omega)]
      simp
    · unfold fullNext
      rw [if_neg (by omega), if_neg (by decide), if_pos rfl, if_pos (by omega)]
      exact congrArg some (by omega)
  · refine ⟨3 + (f - 8) / 512, ⟨2, some 1, (f - 8) / 512⟩, (f - 8) % 512, ?_,
      show 2 ≤ 2 by decide, Nat.mod_lt _ (by decide), fun h => absurd h.1 (show ¬ 2 = 4 by decide), ?_, ?_⟩
    · rw [fullShape_two (by omega), Nat.add_sub_cancel_left]
    · rw [child_two, Nat.div_add_mod']
    · unfold fullNext
      rw [if_neg (by omega), if_neg (by omega), if_neg (by omega), if_pos (by omega)]
      exact congrArg some (by omega)

theorem plain_fullSpace : PlainTables fullShape fullSpace.log fullSpace.phys := by
  intro _ f p _ i _
  have hphys : fullSpace.phys f i =
      (fullNext f i).elim .zero fun n => ⟨true, true, true, BitVec.ofNat 40 n, 0⟩ := rfl
  have hrest : (fullSpace.phys f i).rest = 0 := by
    rw [hphys]
    cases fullNext f i <;> rfl
  unfold Entry.Plain Entry.large Entry.mbz Entry.nx
  rw [hrest]
  decide

theorem userSpace_fullSpace : UserSpace fullShape fullSpace := by
  have hloop : next fullSpace.phys 1 511 = some 1 := by
    rw [next_fullSpace]
    rfl
  exact ⟨⟨fullSpace_forest, fullSpace_linked, by decide, plain_fullSpace⟩,
    ⟨rfl, ⟨hloop, hloop⟩, .inl rfl⟩, fun _ h => h.elim⟩

/-- The page of `v`. -/
theorem translate_fullSpace {v : Addr} (hv : User v) :
    ∃ n, translate fullSpace.phys fullSpace.cr3 v = some n := by
  have hv : @LT.lt Nat _ v 0xC0000000 := hv
  have h4 : v.pml4 = 0 := by
    unfold Addr.pml4
    omega
  have h3 : v.pdp < 3 := by
    unfold Addr.pdp
    omega
  obtain ⟨-, -, h2, h1⟩ := v.index_lt
  refine ⟨0x1000 + ((v.pdp * 512 + v.pd) * 512 + v.pt), ?_⟩
  have e2 : fullNext 2 v.pdp = some (3 + v.pdp) := by
    unfold fullNext
    rw [if_neg (by omega), if_neg (by decide), if_pos rfl, if_pos h3]
  have e3 : fullNext (3 + v.pdp) v.pd = some (8 + (v.pdp * 512 + v.pd)) := by
    unfold fullNext
    rw [if_neg (by omega), if_neg (by omega), if_neg (by omega), if_pos (by omega),
      Nat.add_sub_cancel_left]
  have e4 : fullNext (8 + (v.pdp * 512 + v.pd)) v.pt =
      some (0x1000 + ((v.pdp * 512 + v.pd) * 512 + v.pt)) := by
    unfold fullNext
    rw [if_neg (by omega), if_neg (by omega), if_neg (by omega), if_neg (by omega), if_pos (by omega),
      Nat.add_sub_cancel_left]
  unfold translate Addr.indices
  rw [next_fullSpace, h4]
  exact (walk_cons (show fullNext 1 0 = some 2 from rfl)).trans
    ((walk_cons e2).trans ((walk_cons e3).trans ((walk_cons e4).trans rfl)))

/-- **The full system has room.** -/
theorem ample_fullSpace (h : c ≤ 2 ^ 36) : Ample c fullShape fullSpace := by
  refine ⟨userSpace_fullSpace, fun v hv => ?_, ⟨?_, ?_, by decide, 2 ^ 21, ?_, fun n h1 _ => ?_⟩,
    fun _ he => nomatch he⟩
  · obtain ⟨n, hn⟩ := translate_fullSpace hv
    exact ⟨_, loadByte_eq hn⟩
  · exact bit_fullSpace 0
  · show 2 ^ 21 + c ≤ 2 ^ 37
    omega
  · show 2 ^ 21 + c ≤ 64 * (2 ^ 37 / 64)
    omega
  · rw [bit_fullSpace]
    exact decide_eq_false (by omega)

end

end Paging
