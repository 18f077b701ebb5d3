import Jaos.Memory.Proof.Written
import Jaos.Memory.UserMemory

/-!
# What a program sees of its memory

`UserSpace s m`: the tables form a forest, the window shows the current ones, and no page below 3 GB
is a block of the kernel heap. Then a page of the program has a frame of its own (`UserSpace.once`),
so a byte stored is the only one that changes (`UserSpace.storeByte`). Where new tables come from frames
without entries, a page mapped anew is the only one that changes; it holds what its frame held while it
was free (`UserSpace.mapPage`, `UserSpace.allocPage`).
-/

namespace Paging

open Lib Memman

/-- An address of a program. -/
def User (v : Addr) : Prop := v < 0xC0000000

/-- The current space of a running system (module doc). -/
structure UserSpace (s : Shape) (m : Machine) : Prop where
  good : Good s m
  current : Current s m m.cr3
  live : ∀ q, s.live q → 0xC0000 ≤ q

/-- What both kinds of steps keep: memory in order, and the free frames. -/
structure Keep (s : Shape) (m : Machine) (s' : Shape) (m' : Machine) : Prop where
  space : UserSpace s' m'
  cr3 : m'.cr3 = m.cr3
  free : ∀ f, m'.frames.memoryMap.bit f = false →
    m.frames.memoryMap.bit f = false ∧ m'.phys f = m.phys f

/-- Pages mapped: those in `T` hold what a free frame held. -/
structure Filled (T : Nat → Prop) (s : Shape) (m : Machine) (s' : Shape) (m' : Machine) : Prop
    extends Keep s m s' m' where
  other : ∀ v, User v → ¬ T v.frame → loadByte v m' = loadByte v m
  stale : ∀ v, User v → T v.frame → ∃ f, m.frames.memoryMap.bit f = false ∧
    loadByte v m' = some ((m.phys f (v.offset / 8)).byte (v % 8))

/-- Bytes copied to `[dest, dest + n)`. -/
structure Copied (dest n : Nat) (src : Nat → UInt8) (s : Shape) (m m' : Machine) : Prop
    extends Keep s m s m' where
  pages : ∀ v, User v → translate m'.phys m'.cr3 v = translate m.phys m.cr3 v
  byte : ∀ v : Nat, User v → loadByte v m' =
    if dest ≤ v ∧ v < dest + n then some (src (v - dest)) else loadByte v m

section
variable {s s' s'' : Shape} {m m' m'' : Machine} {v w a : Addr} {n t : Nat}

theorem User.lt (h : User v) : v.pml4 ≠ 511 ∧ v.frame < 0xC0000 ∧ v.frame = v / 4096 := by
  have h : @LT.lt Nat _ v 0xC0000000 := h
  unfold Addr.pml4 Addr.frame
  omega

theorem Keep.refl (U : UserSpace s m) : Keep s m s m := ⟨U, rfl, fun _ h => ⟨h, rfl⟩⟩

theorem Keep.trans (h : Keep s m s' m') (h' : Keep s' m' s'' m'') : Keep s m s'' m'' :=
  ⟨h'.space, h'.cr3.trans h.cr3, fun f hf =>
    ⟨(h.free f (h'.free f hf).1).1, (h'.free f hf).2.trans (h.free f (h'.free f hf).1).2⟩⟩

theorem Filled.refl (U : UserSpace s m) : Filled (fun _ => False) s m s m :=
  ⟨.refl U, fun _ _ _ => rfl, fun _ _ h => h.elim⟩

theorem Filled.mono {T T' : Nat → Prop} (h : Filled T s m s' m') (hT : ∀ q, T q ↔ T' q) :
    Filled T' s m s' m' := by
  obtain rfl : T = T' := funext fun q => propext (hT q)
  exact h

theorem Filled.trans {T T' : Nat → Prop} (h : Filled T s m s' m') (h' : Filled T' s' m' s'' m'') :
    Filled (fun q => T q ∨ T' q) s m s'' m'' := by
  refine ⟨h.toKeep.trans h'.toKeep, fun v hv hT => ?_, fun v hv hT => ?_⟩
  · rw [h'.other v hv fun h => hT (.inr h), h.other v hv fun h => hT (.inl h)]
  · by_cases hT' : T' v.frame
    · obtain ⟨f, hf, hl⟩ := h'.stale v hv hT'
      obtain ⟨hf0, hphys⟩ := h.free f hf
      exact ⟨f, hf0, by rw [hl, hphys]⟩
    · rw [h'.other v hv hT']
      exact h.stale v hv (hT.resolve_right hT')

/-! ## Pages -/

/-- The entry of a page that is mapped. -/
theorem UserSpace.maps (U : UserSpace s m) (hv : User v)
    (h : translate m.phys m.cr3 v = some n) : ∃ t, walk (next m.phys) m.cr3 v.path = some t ∧
      s.place t = some ((Place.root m.cr3).along v.path) ∧ s.Maps (next m.phys) t v.pt n := by
  obtain ⟨t, ht, hn⟩ := Option.bind_eq_some_iff.1 ((@walk_snoc _ _ _ _ _ v.path).symm.trans h)
  obtain ⟨hp, -⟩ := U.good.walk_path U.current.place hv.lt.1 (List.append_nil _).symm ht
  refine ⟨t, ht, hp, _, hp, by rw [along_path], v.index_lt.2.2.2, fun hl => ?_, hn⟩
  have := U.live _ hl
  rw [sub_path] at this
  exact absurd hv.lt.2.1 (Nat.not_lt.2 this)

/-- **A frame serves one page.** -/
theorem UserSpace.once (U : UserSpace s m) (hv : User v) (hw : User w)
    (h : translate m.phys m.cr3 v = some n) (h' : translate m.phys m.cr3 w = some n) :
    v.frame = w.frame := by
  obtain ⟨t, -, hp, hm⟩ := U.maps hv h
  obtain ⟨t', -, hp', hm'⟩ := U.maps hw h'
  obtain ⟨rfl, hpt⟩ := U.good.forest.once _ _ _ _ _ hm hm'
  have hplace := Option.some.inj (hp.symm.trans hp')
  rw [← sub_path m.cr3 v, ← sub_path m.cr3 w, hplace, hpt]

/-- A frame of a page is marked, and no table. -/
theorem UserSpace.page (U : UserSpace s m) (hv : User v) (h : translate m.phys m.cr3 v = some n) :
    m.frames.memoryMap.bit n = true ∧ s.place n = none := by
  obtain ⟨t, -, -, hm⟩ := U.maps hv h
  obtain ⟨hu, hp, -⟩ := U.good.forest.page _ _ _ hm
  exact ⟨hu, hp⟩

/-! ## The same tables -/

/-- What frames hold that are no tables does not matter. -/
theorem UserSpace.scribble {phys : Phys} (U : UserSpace s m)
    (h : ∀ f p, s.place f = some p → phys f = m.phys f) : UserSpace s { m with phys } := by
  obtain ⟨⟨hf, hl, hsize, hplain⟩, ⟨hp, ⟨hroot, hloop⟩, hcr3⟩, hlive⟩ := U
  have hnext : ∀ f p, s.place f = some p → next phys f = next m.phys f := fun f p hp =>
    next_congr (h f p hp)
  have hkeep : Keeps s (fun _ => False) (next m.phys) (next phys) :=
    fun f p i n hp _ hn => by rwa [hnext f p hp]
  refine ⟨⟨hf.scribble hnext, hl.keep (.refl s) hkeep fun f p hp hnone _ => ?_, hsize,
    hplain.keep List.suffix_rfl fun f p hp i he => ?_⟩, ⟨hp, ⟨?_, ?_⟩, hcr3⟩, hlive⟩
  · exact absurd (hnone.symm.trans hp) (by simp)
  · show (phys f i).Plain
    rwa [h f p hp]
  · show next phys m.cr3 511 = some m.cr3
    rwa [hnext _ _ hp]
  · show next phys m.cr3 511 = some m.cr3
    rwa [hnext _ _ hp]

/-- And the pages stay where they are. -/
theorem UserSpace.translate_scribble {phys : Phys} (U : UserSpace s m)
    (h : ∀ f p, s.place f = some p → phys f = m.phys f) (hv : User v) :
    translate phys m.cr3 v = translate m.phys m.cr3 v := by
  have hnext : ∀ js ks, v.path = js ++ ks → ∀ t, walk (next m.phys) m.cr3 js = some t →
      next phys t = next m.phys t := fun js ks hjs t ht =>
    next_congr (h t _ (U.good.walk_path U.current.place hv.lt.1 hjs ht).1)
  have hpath : walk (next phys) m.cr3 v.path = walk (next m.phys) m.cr3 v.path :=
    walk_congr fun f i ⟨js, ks, hjs, hw⟩ => by rw [hnext js _ hjs f hw]
  refine (@walk_snoc _ _ _ _ _ v.path).trans (.trans ?_ (@walk_snoc _ _ _ _ _ v.path).symm)
  rw [hpath]
  cases ht : walk (next m.phys) m.cr3 v.path with
  | none => rfl
  | some t => rw [Option.bind_some, Option.bind_some, hnext _ _ (List.append_nil _).symm t ht]

/-! ## Storing a byte -/

theorem loadByte_eq (h : translate m.phys m.cr3 v = some n) :
    loadByte v m = some ((m.phys n (v.offset / 8)).byte (v % 8)) := by
  rw [loadByte, load_eq (locate_some h), Option.map_some]

theorem loadByte_none (h : translate m.phys m.cr3 v = none) : loadByte v m = none := by
  rw [loadByte, load, locate, h]
  rfl

/-- The processor finds the byte where its walk is that of the tables. -/
theorem hardwareByte_eq (h : hardware m.phys m.cr3 v.indices = translate m.phys m.cr3 v) :
    hardwareByte v m = loadByte v m := by
  unfold hardwareByte loadByte load locate
  rw [h, Option.map_map, Option.map_map]
  rfl

/-- The machine with `b` in the frame `n` where `v` has its byte. -/
def setByteIn (n : Nat) (v : Addr) (b : UInt8) (m : Machine) : Machine :=
  { m with phys := setEntry n (v.offset / 8) ((m.phys n (v.offset / 8)).setByte (v % 8) b) m.phys }

theorem storeByte_cases {b : UInt8} (h : storeByte v b m = some m') :
    ∃ n, translate m.phys m.cr3 v = some n ∧ m' = setByteIn n v b m := by
  obtain ⟨l, hl, rfl⟩ := Option.map_eq_some_iff.1 h
  obtain ⟨n, hn, rfl⟩ := Option.map_eq_some_iff.1 hl
  exact ⟨n, hn, rfl⟩

theorem storeByte_eq {b : UInt8} (h : translate m.phys m.cr3 v = some n) :
    storeByte v b m = some (setByteIn n v b m) := by
  rw [storeByte, modify, locate_some h]
  rfl

theorem setByteIn_phys {b : UInt8} (h : s.place n = none) (f : Nat) (p : Place)
    (hp : s.place f = some p) : (setByteIn n v b m).phys f = m.phys f :=
  setEntry_frame fun hf => by
    rw [hf, h] at hp
    cases hp

/-- Addresses are told apart by the page, the word and the byte. -/
theorem User.eq (hv : User v) (hw : User w) (hf : v.frame = w.frame)
    (ho : v.offset / 8 = w.offset / 8) (hb : v % 8 = w % 8) : v = w := by
  have h1 := hv.lt.2.2
  have h2 := hw.lt.2.2
  unfold Addr.offset at ho
  rw [h1, h2] at hf
  have hf : @HDiv.hDiv Nat Nat Nat _ v 4096 = @HDiv.hDiv Nat Nat Nat _ w 4096 := hf
  have ho : @HMod.hMod Nat Nat Nat _ v (2 ^ 12) / 8 = @HMod.hMod Nat Nat Nat _ w (2 ^ 12) / 8 := ho
  have hb : @HMod.hMod Nat Nat Nat _ v 8 = @HMod.hMod Nat Nat Nat _ w 8 := hb
  show @Eq Nat v w
  omega

/-- **A byte stored** is the only one that changes. -/
theorem UserSpace.storeByte {b : UInt8} (U : UserSpace s m) (hv : User v)
    (h : storeByte v b m = some m') : Copied v 1 (fun _ => b) s m m' := by
  obtain ⟨n, hn, rfl⟩ := storeByte_cases h
  obtain ⟨hu, hp⟩ := U.page hv hn
  have hsame := @setByteIn_phys s m v n b hp
  refine ⟨⟨U.scribble hsame, rfl, fun f hf => ⟨hf, ?_⟩⟩, fun w hw => U.translate_scribble hsame hw,
    fun w hw => ?_⟩
  · refine setEntry_frame fun he => ?_
    have hf : m.frames.memoryMap.bit f = false := hf
    rw [he, hu] at hf
    cases hf
  · have hcond : v ≤ w ∧ w < v + 1 ↔ w = v := by
      show @LE.le Nat _ v w ∧ w < @HAdd.hAdd Nat Nat Nat _ v 1 ↔ @Eq Nat w v
      omega
    have htr : translate (setByteIn n v b m).phys (setByteIn n v b m).cr3 w =
        translate m.phys m.cr3 w := U.translate_scribble hsame hw
    cases hx : translate m.phys m.cr3 w with
    | none =>
      rw [hx] at htr
      rw [loadByte_none htr, loadByte_none hx, if_neg fun hc => ?_]
      rw [hcond.1 hc, hn] at hx
      cases hx
    | some x =>
      rw [hx] at htr
      rw [loadByte_eq htr, loadByte_eq hx]
      by_cases he : w = v
      · subst he
        obtain rfl := Option.some.inj (hn.symm.trans hx)
        rw [if_pos (hcond.2 rfl), setByteIn]
        dsimp only
        rw [setEntry_same, Entry.byte_setByte (Nat.mod_lt _ (by decide))]
      · rw [if_neg fun hc => he (hcond.1 hc), setByteIn]
        dsimp only
        by_cases hword : x = n ∧ Addr.offset w / 8 = v.offset / 8
        · obtain ⟨rfl, ho⟩ := hword
          have hbyte : w % 8 ≠ v % 8 := fun hb => he (User.eq hw hv (U.once hw hv hx hn) ho hb)
          rw [ho, setEntry_same, Entry.byte_setByte_ne (Nat.mod_lt _ (by decide)) hbyte]
        · rw [setEntry_ne hword]

/-! ## `memcpy` -/

section
variable {dest : Nat} {src : Nat → UInt8}

/-- The number of bytes that `memcpy` copies. -/
def copyLength (n : Nat) : Nat := if n < 2 ^ 31 then n else 0

theorem copyLength_le (n : Nat) : copyLength n ≤ n := by
  unfold copyLength
  split <;> omega

theorem memcpy_loop {size : Nat} (h : memcpy dest src size m = some m') :
    loop (fun i => Paging.storeByte (add64 dest i) (src i)) (copyLength size) 0 m = some m' := by
  unfold memcpy at h
  unfold copyLength
  split at h
  · rename_i hlt
    rwa [if_pos hlt]
  · rename_i hge
    rw [if_neg hge]
    split at h
    · cases h
    · exact h

/-- The address of byte `i` of a copy below 3 GB. -/
theorem user_add64 {i : Nat} (h : dest + i < 0xC0000000) :
    add64 dest i = dest + i ∧ User (add64 dest i) := by
  have he : add64 dest i = dest + i := add64_of_lt (by omega)
  exact ⟨he, he ▸ h⟩

/-- One more byte copied. -/
theorem Copied.snoc {i : Nat} (hlt : dest + i < 0xC0000000) (h : Copied dest i src s m m')
    (h' : Copied (add64 dest i) 1 (fun _ => src i) s m' m'') :
    Copied dest (i + 1) src s m m'' := by
  obtain ⟨he, -⟩ := user_add64 hlt
  refine ⟨h.toKeep.trans h'.toKeep, fun v hv => (h'.pages v hv).trans (h.pages v hv), fun v hv => ?_⟩
  rw [h'.byte v hv, h.byte v hv, he]
  by_cases hlast : v = dest + i
  · subst hlast
    rw [if_pos ⟨Nat.le_refl _, Nat.lt_succ_self _⟩, if_pos ⟨Nat.le_add_right _ _, by omega⟩,
      Nat.add_sub_cancel_left]
  · rw [if_neg (by omega)]
    by_cases hin : dest ≤ v ∧ v < dest + i
    · rw [if_pos hin, if_pos (by omega)]
    · rw [if_neg hin, if_neg (by omega)]

/-- **`memcpy`** changes the bytes it writes. -/
theorem UserSpace.memcpy {size : Nat} (U : UserSpace s m) (hlt : dest + copyLength size ≤ 0xC0000000)
    (h : memcpy dest src size m = some m') : Copied dest (copyLength size) src s m m' := by
  have hrun := memcpy_loop h
  have := loop_invariant (P := fun i m' => Copied dest i src s m m') (fun i m1 m2 _ hi hc hs => ?_)
    ⟨.refl U, fun _ _ => rfl, fun v _ => (if_neg (by omega)).symm⟩ hrun
  · rwa [Nat.zero_add] at this
  · exact hc.snoc (by omega) (hc.space.storeByte (user_add64 (by omega)).2 hs)

/-- It gets to its end where all bytes have a page. -/
theorem UserSpace.memcpy_total {size : Nat} (U : UserSpace s m) (hlt : dest + size ≤ 0xC0000000)
    (hsize : size < 2 ^ 31) (h : ∀ i, i < size → (translate m.phys m.cr3 (dest + i)).isSome) :
    ∃ m', Paging.memcpy dest src size m = some m' := by
  unfold Paging.memcpy
  rw [if_pos hsize]
  have hstep : ∀ i m1, 0 ≤ i → i < 0 + size → Copied dest i src s m m1 →
      ∃ m2, Paging.storeByte (add64 dest i) (src i) m1 = some m2 ∧ Copied dest (i + 1) src s m m2 := by
    intro i m1 _ hi hc
    obtain ⟨he, hu⟩ := user_add64 (show dest + i < 0xC0000000 by omega)
    obtain ⟨n, hn⟩ := Option.isSome_iff_exists.1 (h i (by omega))
    rw [← he, ← hc.pages _ hu] at hn
    exact ⟨_, storeByte_eq hn, hc.snoc (by omega) (hc.space.storeByte hu (storeByte_eq hn))⟩
  obtain ⟨m', hrun, -⟩ := loop_total hstep ⟨.refl U, fun _ _ => rfl, fun v _ => (if_neg (by omega)).symm⟩
  exact ⟨m', hrun⟩

end

/-! ## Mapping pages -/

/-- A frame from `mem_alloc_block` was free. -/
theorem allocBlock_free {f : Frames} (h : (memAllocBlock f).1 = n * 0x1000) (hn : n ≠ 0) :
    f.memoryMap.bit n = false ∧
      ∀ k, (memAllocBlock f).2.memoryMap.bit k = (decide (k = n) || f.memoryMap.bit k) := by
  rcases allocBlock_spec f with h0 | ⟨n', -, -, hbit, haddr, -, hmap⟩
  · rw [h0] at h
    have h : 0 = n * 0x1000 := h
    omega
  · have heq : n * 4096 = n' * 4096 := h.symm.trans haddr
    obtain rfl : n = n' := by omega
    exact ⟨hbit, hmap⟩

/-- The addresses of a page have the same indices. -/
theorem User.indices (hv : User v) (ha : User a) (h : v.frame = a.frame) :
    v.indices = a.indices := by
  have hv : @LT.lt Nat _ v 0xC0000000 := hv
  have ha : @LT.lt Nat _ a 0xC0000000 := ha
  have h : @Eq Nat v.frame a.frame := h
  unfold Addr.frame at h
  unfold Addr.indices Addr.pml4 Addr.pdp Addr.pd Addr.pt
  simp only [List.cons.injEq, and_true]
  omega

/-- The functions that map a page look at its number only. -/
theorem createPage_congr {a b : Addr} (h : a.frame = b.frame) (user : Bool) (m : Machine) :
    createPageForCurrent a user m = createPageForCurrent b user m := by
  have hindices : ∀ x : Addr, x.pml4 = x.frame / 2 ^ 27 % 512 ∧ x.pdp = x.frame / 2 ^ 18 % 512 ∧
      x.pd = x.frame / 2 ^ 9 % 512 := by
    intro x
    unfold Addr.pml4 Addr.pdp Addr.pd Addr.frame
    omega
  obtain ⟨ha1, ha2, ha3⟩ := hindices a
  obtain ⟨hb1, hb2, hb3⟩ := hindices b
  unfold createPageForCurrent
  rw [ha1, ha2, ha3, hb1, hb2, hb3, h]

theorem allocFrom_congr {address address' : Nat → Addr} {user : Bool} {k i : Nat} {m : Machine}
    (h : ∀ n, (address n).frame = (address' n).frame) :
    allocFrom address user k i m = allocFrom address' user k i m := by
  induction k generalizing i m with
  | zero => rfl
  | succ k ih =>
    unfold allocFrom
    dsimp only
    rw [createPage_congr (h i)]
    refine ite_congr rfl (fun _ => rfl) fun _ => ?_
    refine congrArg _ (funext fun p => congrArg _ (funext fun m => ih))

/-- One round of the loop of `alloc_page`, with the frame for the page. -/
def mapFrame (a : Addr) (frame : Nat) (m : Machine) : Option Machine :=
  (createPageForCurrent a true m).bind fun p =>
    writeFields p.1 [.setPresent true, .setUser true, .setRw true, .setFrame frame] p.2

theorem allocFrom_succ {address : Nat → Addr} {k i : Nat} (h : (memAllocBlock m.frames).1 ≠ 0) :
    allocFrom address true (k + 1) i m = (mapFrame (address i) ((memAllocBlock m.frames).1 / 0x1000)
      { m with frames := (memAllocBlock m.frames).2 }).bind (allocFrom address true k (i + 1)) := by
  rw [allocFrom]
  rw [if_neg h, mapFrame, Option.bind_assoc]

theorem mapFrame_log {frame : Nat} (h : mapFrame a frame m = some m') : m.log <:+ m'.log := by
  obtain ⟨⟨p, m1⟩, hc, hw⟩ := Option.bind_eq_some_iff.1 h
  rw [writeFields_log hw]
  exact createPage_log hc

/-- Where the window is in order, the missing tables are linked and the entry is filled. -/
theorem mapFrame_eq {r : Nat} (h : Window m r) {m1 : Machine} (hm1 : m1 = linkPath true 4 0 r a.path m)
    (ht : walk (next m1.phys) r a.path = some t)
    (hr : ¬ Reads (next m1.phys) m1.cr3 (entryAt currentPt a.frame).indices t a.pt) (frame : Nat) :
    mapFrame a frame m = some { m1 with
      phys := setEntry t a.pt ⟨true, true, true, BitVec.ofNat 40 frame, (m1.phys t a.pt).rest⟩ m1.phys } := by
  have hl : locate (entryAt currentPt a.frame) m1 = some (t, a.pt) := by
    rw [locate_pt (hm1 ▸ h.linkPath) a, ht, Option.map_some]
  rw [mapFrame, createPage_eq h, Option.bind_some, ← hm1, writeFields_eq hl hr]
  rfl

section
variable {user : Bool} {A : Addr → Prop} {T : Nat → Prop}

/-- Mapping pages writes to tables only. -/
theorem Written.data (W : Written user m.cr3 A m m') (G : Good s' m')
    (hroot : s'.place m.cr3 = some (.root m.cr3)) (hA : ∀ b, A b → b.pml4 ≠ 511) {f : Nat}
    (hf : s'.place f = none) : m'.phys f = m.phys f := by
  funext i
  rcases W f i with h | ⟨-, b, hb, ks, hon, -⟩
  · exact h
  · obtain ⟨q, hq, -⟩ := hon.level G hroot (hA b hb)
    rw [hf] at hq
    cases hq

/-- **Pages mapped elsewhere** leave those of the program alone. -/
theorem UserSpace.elsewhere (U : UserSpace s m) (U' : UserSpace s' m') (hcr3 : m'.cr3 = m.cr3)
    (hk : Keeps s T (next m.phys) (next m'.phys)) (W : Written user m.cr3 A m m')
    (hA : ∀ b, A b → b.pml4 ≠ 511) (hv : User v) (hT : ¬ T v.frame) (hno : ∀ b, A b → b.frame ≠ v.frame) :
    translate m'.phys m'.cr3 v = translate m.phys m.cr3 v ∧ loadByte v m' = loadByte v m := by
  have hroot : s'.place m.cr3 = some (.root m.cr3) := hcr3 ▸ U'.current.place
  have hsame : translate m'.phys m'.cr3 v = translate m.phys m.cr3 v := by
    rw [hcr3]
    cases hx : translate m.phys m.cr3 v with
    | some x => exact U.good.kept U.current.place hv.lt.1 hk hT hx
    | none =>
      cases hx' : translate m'.phys m.cr3 v with
      | none => rfl
      | some x =>
        -- a way that ends in a page is as it was
        have hread : ∀ f i, Reads (next m'.phys) m.cr3 v.indices f i →
            next m.phys f i = next m'.phys f i := fun f i ⟨js, ks, hjs, hw⟩ => by
          have hu := W.unmapped U'.good hroot hA hv.lt.1 hno hx' ⟨js, hjs, hw⟩
          unfold next
          rw [hu]
        exact absurd ((walk_congr hread).trans hx') (by rw [show walk _ _ _ = none from hx]; simp)
  refine ⟨hsame, ?_⟩
  cases hx : translate m.phys m.cr3 v with
  | none => rw [loadByte_none hx, loadByte_none (hsame.trans hx)]
  | some x =>
    have hx' := hsame.trans hx
    rw [loadByte_eq hx, loadByte_eq hx', W.data U'.good hroot hA (U'.page hv hx').2]

end

/-- **One page mapped**, where there is a frame for it and new tables come from frames without
entries. -/
theorem UserSpace.mapPage (U : UserSpace s m) (ha : User a) (h0 : (memAllocBlock m.frames).1 ≠ 0)
    (hrun : mapFrame a ((memAllocBlock m.frames).1 / 0x1000)
      { m with frames := (memAllocBlock m.frames).2 } = some m') (hlog : ∀ e ∈ m'.log, e.Ok) :
    ∃ s', s.Le s' ∧ Filled (fun q => q = a.frame) s m s' m' := by
  obtain ⟨⟨p, m1⟩, hc, hw⟩ := Option.bind_eq_some_iff.1 hrun
  rcases U.good.allocBlock with ⟨h, -⟩ | ⟨n, hn0, hlt, haddr, hplace, hheld, G1⟩
  · exact absurd h h0
  have hframe : (memAllocBlock m.frames).1 / 0x1000 = n := by
    rw [haddr, Nat.mul_div_cancel _ (by decide)]
  rw [hframe] at hw
  obtain ⟨hbit, hmap⟩ := allocBlock_free haddr hn0
  have hcur : Current (s.hold n) { m with frames := (memAllocBlock m.frames).2 } m.cr3 :=
    ⟨U.current.place, ⟨U.current.window.root, U.current.window.loop⟩, .inl rfl⟩
  have W := (G1.mapPage_written hcur (.inl rfl) hlt ha.lt.1 hc hw hlog).1
  obtain ⟨s1, G2, A1, -, htr⟩ := G1.mapPage (T := fun q => q = a.frame) hcur (.inl rfl) ha.lt.1 rfl
    (pageEntry_spec hlt true) hc hw hlog
  have A := A1.mapped hheld
  generalize hs' : s1.drop n = s' at G2 A
  have hcr3 : m'.cr3 = m.cr3 := A.cr3
  have hroot : s'.place m.cr3 = some (.root m.cr3) := A.le.place _ _ U.current.place
  have U' : UserSpace s' m' := ⟨G2, by rw [hcr3]; exact U.current.after A, by
    rw [A.live]
    exact U.live⟩
  have hA : ∀ b : Addr, b = a → b.pml4 ≠ 511 := fun b hb => hb ▸ ha.lt.1
  -- only tables are written
  have hphys : ∀ f, s'.place f = none → m'.phys f = m.phys f := fun f hf => W.data G2 hroot hA hf
  have hfree : ∀ f, m'.frames.memoryMap.bit f = false → m.frames.memoryMap.bit f = false := by
    intro f hf
    refine Bool.eq_false_iff.2 fun hbit => ?_
    rw [writeFields_frames hw, createPage_marks hc f (by rw [hmap f, hbit, Bool.or_true])] at hf
    cases hf
  refine ⟨s', A.le, ⟨U', hcr3, fun f hf => ⟨hfree f hf, hphys f ?_⟩⟩, fun v hv hne => ?_,
    fun v hv heq => ⟨n, hbit, ?_⟩⟩
  · cases hp : s'.place f with
    | none => rfl
    | some q =>
      rw [G2.forest.marked f q hp] at hf
      cases hf
  · exact (U.elsewhere U' hcr3 A.keeps W hA hv hne fun b hb h => hne (by rw [← h, hb])).2
  · have hx : translate m'.phys m'.cr3 v = some n := by
      rw [hcr3, ← htr, translate, translate, hv.indices ha heq]
    rw [loadByte_eq hx, hphys n (U'.page hv hx).2]

/-- **The loop of `alloc_page`** fills the pages it maps with what free frames held. -/
theorem UserSpace.allocFrom {address : Nat → Addr} {k i : Nat} (U : UserSpace s m)
    (ha : ∀ j, i ≤ j → j < i + k → User (address j))
    (hrun : allocFrom address true k i m = some (true, m')) (hlog : ∀ e ∈ m'.log, e.Ok) :
    ∃ s', s.Le s' ∧ Filled (Touched address i k) s m s' m' := by
  induction k generalizing i s m with
  | zero =>
    cases hrun
    exact ⟨s, .refl s, (Filled.refl U).mono fun q => ⟨False.elim, fun ⟨j, h1, h2, _⟩ => by omega⟩⟩
  | succ k ih =>
    have hu := ha i (Nat.le_refl _) (by omega)
    by_cases h0 : (memAllocBlock m.frames).1 = 0
    · rw [Paging.allocFrom] at hrun
      rw [if_pos h0] at hrun
      cases hrun
    · rw [allocFrom_succ h0] at hrun
      obtain ⟨m1, h1, hrun⟩ := Option.bind_eq_some_iff.1 hrun
      obtain ⟨s1, hle1, F1⟩ := U.mapPage hu h0 h1 fun e he => hlog e ((allocFrom_log hrun).subset he)
      obtain ⟨s', hle, F⟩ := ih F1.space (fun j h1 h2 => ha j (by omega) (by omega)) hrun
      refine ⟨s', hle1.trans hle, (F1.trans F).mono fun q => ?_⟩
      constructor
      · rintro (rfl | ⟨j, h1, h2, hq⟩)
        · exact ⟨i, Nat.le_refl _, by omega, rfl⟩
        · exact ⟨j, by omega, by omega, hq⟩
      · rintro ⟨j, h1, h2, hq⟩
        by_cases hj : j = i
        · exact .inl (hj ▸ hq)
        · exact .inr ⟨j, by omega, by omega, hq⟩

/-! ## `alloc_page` -/

section
variable {virtual size : Nat}

/-- The pages that `alloc_page` is asked for lie below 3 GB. -/
def PagesLow (virtual size : Nat) : Prop :=
  ∀ q, virtual / 4096 ≤ q → q < virtual / 4096 + size → q < 0xC0000

/-- The address of one of these pages. -/
theorem PagesLow.address (h : PagesLow virtual size) {i : Nat} (hi : i < size) :
    User (add64 virtual (i * 0x1000)) ∧
      Addr.frame (add64 virtual (i * 0x1000)) = virtual / 4096 + i := by
  have hq := h (virtual / 4096 + i) (by omega) (by omega)
  have he : add64 virtual (i * 0x1000) = virtual + i * 0x1000 := add64_of_lt (by omega)
  have hu : User (add64 virtual (i * 0x1000)) := by
    rw [he]
    show virtual + i * 0x1000 < 0xC0000000
    omega
  refine ⟨hu, ?_⟩
  rw [hu.lt.2.2, he]
  show (virtual + i * 0x1000) / 4096 = _
  omega

/-- The pages that the loop maps. -/
theorem PagesLow.touched (h : PagesLow virtual size) (q : Nat) :
    Touched (fun i => add64 virtual (i * 0x1000)) 0 size q ↔
      virtual / 4096 ≤ q ∧ q < virtual / 4096 + size := by
  constructor
  · rintro ⟨j, -, hj, rfl⟩
    rw [(h.address (i := j) (by omega)).2]
    omega
  · intro hq
    refine ⟨q - virtual / 4096, Nat.zero_le _, by omega, ?_⟩
    rw [(h.address (i := q - virtual / 4096) (by omega)).2]
    omega

theorem allocPage_cases {p : Addr} (hsize : size ≠ 0) (hrun : allocPage virtual size m = some (p, m'))
    (hp : p ≠ 0) :
    Paging.allocFrom (fun i => add64 virtual (i * 0x1000)) true size 0 m = some (true, m') ∧
      p = virtual := by
  unfold Paging.allocPage at hrun
  rw [if_neg hsize] at hrun
  obtain ⟨⟨ok, m1⟩, hfrom, he⟩ := Option.map_eq_some_iff.1 hrun
  obtain ⟨hpe, rfl⟩ := Prod.mk.inj he
  cases ok with
  | false => exact absurd hpe.symm hp
  | true => exact ⟨hfrom, hpe.symm⟩

/-- **`alloc_page`** maps the pages to frames that hold what they held. -/
theorem UserSpace.allocPage {p : Addr} (U : UserSpace s m) (hsize : size ≠ 0)
    (h : PagesLow virtual size) (hrun : allocPage virtual size m = some (p, m')) (hp : p ≠ 0)
    (hlog : ∀ e ∈ m'.log, e.Ok) : ∃ s', s.Le s' ∧
      Filled (fun q => virtual / 4096 ≤ q ∧ q < virtual / 4096 + size) s m s' m' := by
  obtain ⟨s', hle, F⟩ := U.allocFrom (fun j _ hj => (h.address (by omega)).1)
    (allocPage_cases hsize hrun hp).1 hlog
  exact ⟨s', hle, F.mono h.touched⟩

end

/-- **`alloc_kernel_page`** leaves the program's pages alone: it maps pages from 3 GB on. -/
theorem UserSpace.allocKernelPage {size : Nat} {p : Addr} (U : UserSpace s m)
    (hrun : allocKernelPage size m = some (p, m')) (hlog : ∀ e ∈ m'.log, e.Ok)
    (hnb : 0xC0000 ≤ m.nextBlock) : (∃ s', UserSpace s' m') ∧ 0xC0000 ≤ m'.nextBlock ∧
      ∀ v, User v → translate m'.phys m'.cr3 v = translate m.phys m.cr3 v ∧ loadByte v m' = loadByte v m := by
  obtain ⟨s', G, A, hle, hres⟩ := U.good.allocKernelPage U.current hrun hlog
  have U' : UserSpace s' m' := ⟨G, by rw [A.cr3]; exact U.current.after A, by
    rw [A.live]
    exact U.live⟩
  obtain ⟨⟨ok, m1⟩, hfrom, he⟩ := Option.map_eq_some_iff.1 hrun
  have hm1 : m1.log = m'.log ∧ m1.phys = m'.phys := by
    dsimp only at he
    split at he <;> cases he <;> exact ⟨rfl, rfl⟩
  have G0 : Good s { m with log := .pages m.nextBlock size :: m.log } :=
    ⟨U.good.forest, U.good.linked, U.good.size, U.good.plain.keep (List.suffix_cons _ _) fun _ _ _ _ h => h⟩
  have h0 : Current s { m with log := .pages m.nextBlock size :: m.log } m.cr3 :=
    ⟨U.current.place, ⟨U.current.window.root, U.current.window.loop⟩, U.current.cr3⟩
  -- the pages asked for
  have hpage : ∀ j, j < size → Addr.frame (add64 m.nextBlock j * 0x1000 % 2 ^ 64) = m.nextBlock + j ∧
      Addr.pml4 (add64 m.nextBlock j * 0x1000 % 2 ^ 64) ≠ 511 := fun j hj => by
    rw [show add64 m.nextBlock j * 0x1000 % 2 ^ 64 = _ from kernelPage_eq (by omega)]
    exact page_frame (by omega)
  have W := (G0.allocFrom_written h0 (fun j _ hj => (hpage j (by omega)).2) hfrom (hm1.1 ▸ hlog)).1
  refine ⟨⟨s', U'⟩, ?_, fun v hv => U.elsewhere U' A.cr3 A.keeps (W.congr rfl hm1.2.symm) ?_ hv ?_ ?_⟩
  · rcases hres with ⟨-, h⟩ | ⟨-, h, -⟩ <;> omega
  · rintro b ⟨j, -, hj, rfl⟩
    exact (hpage j (by omega)).2
  · have := hv.lt.2.1
    unfold Fresh
    omega
  · rintro b ⟨j, -, hj, rfl⟩
    have := hv.lt.2.1
    rw [(hpage j (by omega)).1]
    omega

end

end Paging
