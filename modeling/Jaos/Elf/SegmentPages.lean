import Jaos.Elf.LoadExecutable
import Jaos.Memory.Proof.Written
import Jaos.Memory.Proof.SpacesRun
import Jaos.Memory.Proof.OldEntries

/-!
# The pages of a segment

`load_executable` maps `p_memsz / 4096 + 1` pages from the page of `p_vaddr` on. `UserWritable v m`: the
processor lets a program read and write the byte at `v`, that is, the entries on the way to its page are
present and have the `user` and `rw` bits, and no bit that stops the processor. `segment_mapped_iff`: where
no old entry of an uncleared table is in the way (`CallClear`), all bytes of a segment are so after the call
of `alloc_page` exactly when the segment does not reach into one more page than that, or this page was mapped
already, and the tables that were there have the two bits.
-/

namespace Paging

open Lib Memman

/-! ## What the processor grants -/

/-- The entries at the indices are present and have the bits `user` and `rw`. -/
def grants (phys : Phys) : (f : Nat) → (is : List Nat) → Bool
  | _, [] => true
  | f, i :: is => let e := phys f i
    e.present && e.user && e.rw && grants phys e.frame.toNat is

/-- Those of the entries that are present have the bits `user` and `rw`. -/
def allows (phys : Phys) : (f : Nat) → (is : List Nat) → Bool
  | _, [] => true
  | f, i :: is => let e := phys f i
    !e.present || e.user && e.rw && allows phys e.frame.toNat is

/-- A program may read and write the byte at `v`. -/
structure UserWritable (v : Addr) (m : Machine) : Prop where
  grants : grants m.phys m.cr3 v.indices = true
  reached : (hardware m.phys m.cr3 v.indices).isSome

/-- The tables that are there on the way to `v` are open to programs. -/
def UserTables (v : Addr) (m : Machine) : Prop := allows m.phys m.cr3 v.path = true

section
variable {phys phys' : Phys} {f : Nat} {is : List Nat}

theorem grants_cons {i : Nat} : grants phys f (i :: is) = true ↔
    (phys f i).Fresh true ∧ grants phys (phys f i).frame.toNat is = true := by
  unfold Entry.Fresh
  simp only [grants, Bool.and_eq_true]
  constructor
  · rintro ⟨⟨⟨hp, hu⟩, hw⟩, h⟩
    exact ⟨⟨hp, hw, hu⟩, h⟩
  · rintro ⟨⟨hp, hw, hu⟩, h⟩
    exact ⟨⟨⟨hp, hu⟩, hw⟩, h⟩

theorem grants_walk (h : grants phys f is = true) : ∃ n, walk (next phys) f is = some n := by
  induction is generalizing f with
  | nil => exact ⟨f, rfl⟩
  | cons i is ih =>
    obtain ⟨he, h⟩ := grants_cons.1 h
    obtain ⟨n, hn⟩ := ih h
    exact ⟨n, by rwa [walk_cons (next_some.2 ⟨he.1, rfl⟩)]⟩

/-- Entries with the same links grant the same. -/
theorem grants_same (h : ∀ js i ks g, is = js ++ i :: ks → walk (next phys) f js = some g →
    SameLink (phys g i) (phys' g i)) : grants phys f is = grants phys' f is := by
  induction is generalizing f with
  | nil => rfl
  | cons i is ih =>
    obtain ⟨hp, hlink⟩ := h [] i is f rfl rfl
    unfold grants
    dsimp only
    cases he : (phys f i).present with
    | false => simp only [hp, he, Bool.false_and]
    | true =>
      obtain ⟨hw, hu, hf⟩ := hlink he
      rw [hp, he, hw, hu, hf, ih fun js j ks g hjs hw => h (i :: js) j ks g (by rw [hjs, List.cons_append])
        (by rwa [walk_cons (next_some.2 ⟨he, rfl⟩)])]

/-- And allow the same. -/
theorem allows_same (h : ∀ js i ks g, is = js ++ i :: ks → walk (next phys) f js = some g →
    SameLink (phys g i) (phys' g i)) : allows phys f is = allows phys' f is := by
  induction is generalizing f with
  | nil => rfl
  | cons i is ih =>
    obtain ⟨hp, hlink⟩ := h [] i is f rfl rfl
    unfold allows
    dsimp only
    cases he : (phys f i).present with
    | false => simp only [hp, he, Bool.not_false, Bool.true_or]
    | true =>
      obtain ⟨hw, hu, hf⟩ := hlink he
      rw [hp, he, hw, hu, hf, ih fun js j ks g hjs hw => h (i :: js) j ks g (by rw [hjs, List.cons_append])
        (by rwa [walk_cons (next_some.2 ⟨he, rfl⟩)])]

/-- What is granted is reached where the processor walks the tables as the model does. -/
theorem userWritable_iff {v : Addr} {m : Machine}
    (h : hardware m.phys m.cr3 v.indices = translate m.phys m.cr3 v) :
    UserWritable v m ↔ grants m.phys m.cr3 v.indices = true := by
  refine ⟨fun hw => hw.grants, fun hg => ⟨hg, ?_⟩⟩
  obtain ⟨n, hn⟩ := grants_walk hg
  rw [h, translate, hn]
  rfl

/-- The same entries grant the same. -/
theorem grants_congr (h : grants phys f is = true)
    (heq : ∀ js i ks g, is = js ++ i :: ks → walk (next phys) f js = some g →
      (phys g i).present = true → phys' g i = phys g i) : grants phys' f is = true := by
  induction is generalizing f with
  | nil => rfl
  | cons i is ih =>
    obtain ⟨he, h⟩ := grants_cons.1 h
    rw [grants_cons, heq [] i is f rfl rfl he.1]
    refine ⟨he, ih h fun js j ks g hjs hw hp => ?_⟩
    exact heq (i :: js) j ks g (by rw [hjs, List.cons_append])
      (by rwa [walk_cons (next_some.2 ⟨he.1, rfl⟩)]) hp

end

/-! ## The pages of a call of `alloc_page` -/

section
variable {A : Addr → Prop} {s s' : Shape} {m m' : Machine} {a : Addr} {T : Nat → Prop}

section
variable (h : Written true m.cr3 A m m') (G' : Good s' m') (hr : s'.place m.cr3 = some (.root m.cr3))
  (hA : ∀ b, A b → b.pml4 ≠ 511) (ha : a.pml4 ≠ 511)
include h G' hr hA ha

/-- A page that was not mapped by the call grants what it granted. -/
theorem Written.grants_iff (G : Good s m) (hroot : s.place m.cr3 = some (.root m.cr3))
    (hk : Keeps s T (next m.phys) (next m'.phys)) (hno : ∀ b, A b → b.frame ≠ a.frame) :
    grants m'.phys m.cr3 a.indices = true ↔ grants m.phys m.cr3 a.indices = true := by
  constructor
  · intro hg
    obtain ⟨n, hn⟩ := grants_walk hg
    exact grants_congr hg fun js i ks g hjs hw _ =>
      (h.unmapped G' hr hA ha hno hn ⟨js, hjs, hw⟩).symm
  · intro hg
    refine grants_congr hg fun js i ks g hjs hw hp => ?_
    have hon : OnWay m' m.cr3 a g i ks := OnWay.kept G hroot ha hk ⟨js, hjs, hw⟩
    by_cases hks : ks = []
    · subst hks
      exact h.page G' hr hA ha hno hon
    · refine (h.link G' hr hA ha hks hon).resolve_right fun ⟨_, hnew⟩ => ?_
      rw [hnew.1] at hp
      cases hp

/-- What is granted was allowed. -/
theorem Written.allows (G : Good s m) (hroot : s.place m.cr3 = some (.root m.cr3))
    (hk : Keeps s T (next m.phys) (next m'.phys)) (hg : grants m'.phys m.cr3 a.indices = true) :
    Paging.allows m.phys m.cr3 a.path = true := by
  -- `js` is the part of the path walked already
  have key : ∀ ks js f, a.path = js ++ ks → walk (next m.phys) m.cr3 js = some f →
      grants m'.phys f (ks ++ [a.pt]) = true → Paging.allows m.phys f ks = true := by
    intro ks
    induction ks with
    | nil => exact fun _ _ _ _ _ => rfl
    | cons i ks ih =>
      intro js f hjs hw hg
      rw [List.cons_append] at hg
      obtain ⟨he, hg⟩ := grants_cons.1 hg
      unfold Paging.allows
      dsimp only
      by_cases hp : (m.phys f i).present = true
      · have hon : OnWay m m.cr3 a f i (ks ++ [a.pt]) :=
          ⟨js, by rw [indices_path, hjs, List.append_assoc, List.cons_append], hw⟩
        have heq : m'.phys f i = m.phys f i := by
          refine (h.link G' hr hA ha (by simp) (hon.kept G hroot ha hk)).resolve_right
            fun ⟨_, hnew⟩ => ?_
          rw [hnew.1] at hp
          cases hp
        rw [heq] at he hg
        have hnext := ih (js ++ [i]) _ (by rw [hjs, List.append_assoc, List.singleton_append])
          (by rw [walk_snoc, hw]; exact next_some.2 ⟨hp, rfl⟩) hg
        rw [he.2.1, he.2.2, hnext, Bool.and_self, Bool.and_self, Bool.or_true]
      · rw [Bool.eq_false_iff.2 hp, Bool.not_false, Bool.true_or]
  exact key a.path [] m.cr3 rfl rfl hg

/-- What is allowed is granted on a way whose end was written. -/
theorem Written.grants {t : Nat} (hg : Paging.allows m.phys m.cr3 a.path = true)
    (ht : walk (next m'.phys) m.cr3 a.path = some t) (hfresh : (m'.phys t a.pt).Fresh true) :
    Paging.grants m'.phys m.cr3 a.indices = true := by
  -- the rest of the way starts in an old table, or in a new one that held nothing
  have key : ∀ ks js f, a.path = js ++ ks → walk (next m'.phys) m.cr3 js = some f →
      (Paging.allows m.phys f ks = true ∨ ∀ j, j < 512 → (m.phys f j).present = false) →
      Paging.grants m'.phys f (ks ++ [a.pt]) = true := by
    intro ks
    induction ks with
    | nil =>
      intro js f hjs hw _
      rw [List.append_nil] at hjs
      rw [← hjs, ht] at hw
      cases hw
      exact grants_cons.2 ⟨hfresh, rfl⟩
    | cons i ks ih =>
      intro js f hjs hw hold
      have hon : OnWay m' m.cr3 a f i (ks ++ [a.pt]) :=
        ⟨js, by rw [indices_path, hjs, List.append_assoc, List.cons_append], hw⟩
      have hp : (m'.phys f i).present = true := by
        rw [hjs, walk_append, hw, Option.bind_some, walk] at ht
        obtain ⟨x, hx, -⟩ := Option.bind_eq_some_iff.1 ht
        exact (next_some.1 hx).1
      have hnext : walk (next m'.phys) m.cr3 (js ++ [i]) = some (m'.phys f i).frame.toNat := by
        rw [walk_snoc, hw]
        exact next_some.2 ⟨hp, rfl⟩
      have hjs' : a.path = (js ++ [i]) ++ ks := by
        rw [hjs, List.append_assoc, List.singleton_append]
      rw [List.cons_append, grants_cons]
      rcases h.link G' hr hA ha (by simp) hon with heq | ⟨hnewe, hnew⟩
      · have hi : i < 512 := a.path_lt i (hjs ▸ by simp)
        rw [heq] at hp hnext ⊢
        have hall := hold.resolve_right fun hclean => by
          rw [hclean i hi] at hp
          cases hp
        unfold Paging.allows at hall
        dsimp only at hall
        rw [hp, Bool.not_true, Bool.false_or, Bool.and_eq_true, Bool.and_eq_true] at hall
        exact ⟨⟨hp, hall.1.2, hall.1.1⟩, ih _ _ hjs' hnext (.inl hall.2)⟩
      · exact ⟨hnewe, ih _ _ hjs' hnext (.inr hnew.2)⟩
  exact key a.path [] m.cr3 rfl rfl (.inl hg)

end

/-- `alloc_page` finds a frame for each of the `size` pages. -/
def AllPages (virtual : Addr) (size : Nat) (m m' : Machine) : Prop :=
  allocFrom (fun i => add64 virtual (i * 0x1000)) true size 0 m = some (true, m')

theorem AllPages.allocPage {virtual size : Nat} (hs : size ≠ 0) (h : AllPages virtual size m m') :
    allocPage virtual size m = some (virtual, m') := by
  unfold Paging.allocPage
  simp only [if_neg hs]
  rw [show allocFrom _ true size 0 m = _ from h]
  rfl

/-- The current space of a running system. -/
theorem SpacesOk.userSpace {b : Prop} {s : Sys} (h : SpacesOk b s) (fine : Fine s.kernel.machine.log) :
    ∃ sh, UserSpace sh s.kernel.machine := by
  obtain ⟨kpd, sh, R, -⟩ := h
  exact ⟨sh, R.good, R.space.current, fun q hq => R.live_kernel fine hq⟩

/-- The call maps the page `q`. -/
def CallPage (virtual size q : Nat) : Prop := virtual / 4096 ≤ q ∧ q < virtual / 4096 + size

/-- What a call does to the page of `a`, if it is one of its pages and if it is not. -/
theorem UserSpace.allPages {virtual size : Nat} (U : UserSpace s m)
    (hlow : ∀ j, j < size → virtual + j * 4096 < 0xC0000000) (h : AllPages virtual size m m')
    (fine : ∀ e ∈ m'.log, e.Ok) (ha : a < 0xC0000000) :
    (Paging.grants m'.phys m'.cr3 a.indices = true → UserTables a m) ∧
      (CallPage virtual size a.frame → UserTables a m →
        Paging.grants m'.phys m'.cr3 a.indices = true) ∧
      (¬ CallPage virtual size a.frame → (Paging.grants m'.phys m'.cr3 a.indices = true ↔
        Paging.grants m.phys m.cr3 a.indices = true)) := by
  have haddr : ∀ j, j < size → add64 virtual (j * 0x1000) = virtual + j * 4096 := fun j hj => by
    have := hlow j hj
    exact add64_of_lt (by omega)
  have hpage : ∀ j, j < size → Addr.pml4 (add64 virtual (j * 0x1000)) ≠ 511 ∧
      Addr.frame (add64 virtual (j * 0x1000)) = virtual / 4096 + j := fun j hj => by
    have hl := User.lt (v := virtual + j * 4096) (hlow j hj)
    rw [haddr j hj]
    refine ⟨hl.1, hl.2.2.trans ?_⟩
    omega
  have hpages : ∀ j, 0 ≤ j → j < 0 + size → Addr.pml4 (add64 virtual (j * 0x1000)) ≠ 511 :=
    fun j _ hj => (hpage j (by omega)).1
  obtain ⟨W, hcover⟩ := U.good.allocFrom_written U.current hpages h fine
  obtain ⟨s', G', A, -, -⟩ := U.good.allocFrom U.current hpages h fine
  have hr : s'.place m.cr3 = some (.root m.cr3) := A.le.place _ _ U.current.place
  have hA : ∀ b : Addr, (∃ j, 0 ≤ j ∧ j < 0 + size ∧ b = add64 virtual (j * 0x1000)) → b.pml4 ≠ 511 := by
    rintro b ⟨j, h0, hj, rfl⟩
    exact hpages j h0 hj
  obtain ⟨ha4, -, haf⟩ := User.lt ha
  unfold UserTables
  rw [A.cr3]
  refine ⟨W.allows G' hr hA ha4 U.good U.current.place A.keeps, ?_, fun hno => ?_⟩
  · intro hcall htables
    obtain ⟨j, hj, heq⟩ : ∃ j, j < size ∧ a.frame = virtual / 4096 + j :=
      ⟨a.frame - virtual / 4096, Nat.sub_lt_left_of_lt_add hcall.1 hcall.2,
        (Nat.add_sub_of_le hcall.1).symm⟩
    obtain ⟨t, ht, hfresh⟩ := hcover rfl j (Nat.zero_le _) (by omega)
    have hidx : Addr.indices (add64 virtual (j * 0x1000)) = a.indices := by
      refine User.indices ?_ ha ((hpage j hj).2.trans heq.symm)
      rw [haddr j hj]
      exact hlow j hj
    rw [indices_path, indices_path] at hidx
    obtain ⟨hp, hpt⟩ := List.append_inj' hidx rfl
    rw [hp] at ht
    rw [(List.cons.inj hpt).1] at hfresh
    exact W.grants G' hr hA ha4 htables ht hfresh
  · refine W.grants_iff G' hr hA ha4 U.good U.current.place A.keeps ?_
    rintro b ⟨j, -, hj, rfl⟩ hb
    rw [(hpage j (by omega)).2] at hb
    exact hno ⟨by omega, by omega⟩

/-! ## Old entries -/

/-- **No old entry is in the way** of the call, to its own pages and to those in `R`: a table that it links is
a frame, and what that held is not followed. -/
def CallClear (R : Addr → Prop) (virtual size : Nat) (m m' : Machine) : Prop :=
  ∀ e, Since m.log m' e → e.HasFrame ∧ ∀ a, User a → CallPage virtual size a.frame ∨ R a →
    e.Clear (CallPage virtual size a.frame) a

/-- Tables that held no entries and no reserved bits have nothing in the way. -/
theorem CallClear.of_ok {R : Addr → Prop} {virtual size : Nat} (h : ∀ e ∈ m'.log, e.Ok ∧ e.Plain) :
    CallClear R virtual size m m' := by
  intro e he
  obtain ⟨hok, hplain⟩ := h e he.mem
  cases e with
  | table entry frame old =>
    have hempty : ∀ i k, i < 512 → (old i).Empty k := fun i k hi => ⟨hok.2 i hi, (hplain i hi).goes k⟩
    refine ⟨hok.1, fun a _ _ => ?_⟩
    obtain ⟨-, h3, h2, h1⟩ := a.index_lt
    exact ⟨fun _ => hempty _ 2 h3, fun _ => hempty _ 1 h2, fun _ => ⟨(hempty _ 0 h1).2, fun _ => (hempty _ 0 h1).1⟩⟩
  | _ => exact ⟨trivial, fun _ _ _ => trivial⟩

/-- The entries on the way to a page do not depend on the frames that are no tables. -/
theorem UserSpace.same_scribble {phys : Phys} (U : UserSpace s m)
    (h : ∀ f p, s.place f = some p → phys f = m.phys f) (ha : User a) {js ks : List Nat} {i f : Nat}
    (hjs : a.indices = js ++ i :: ks) (hw : walk (next m.phys) m.cr3 js = some f) :
    SameLink (m.phys f i) (phys f i) := by
  obtain ⟨-, l, hl⟩ := indices_prefix hjs
  rw [h f _ (U.good.walk_path U.current.place ha.lt.1 hl hw).1]
  exact .refl _

/-- **What a call does to the page of `a`**, where no old entry is in the way. -/
theorem UserSpace.callPages {virtual size : Nat} {R : Addr → Prop} (U : UserSpace s m)
    (hlow : ∀ j, j < size → virtual + j * 4096 < 0xC0000000) (h : AllPages virtual size m m')
    (hlog : ∀ e ∈ m.log, e.Ok ∧ e.Plain) (hclear : CallClear R virtual size m m') (ha : User a)
    (hR : CallPage virtual size a.frame ∨ R a) :
    (UserWritable a m' → UserTables a m) ∧
      (CallPage virtual size a.frame → UserTables a m → UserWritable a m') ∧
      (¬ CallPage virtual size a.frame → (UserWritable a m' ↔ UserWritable a m)) := by
  have hplain : ∀ e ∈ m.log, e.Plain := fun e he => (hlog e he).2
  have hne : ∀ a f old, Since m.log m' (.table a f old) → f ≠ 0 := fun _ _ _ he => (hclear _ he).1
  have hbefore : Extends m m' := extends_allocFrom h
  have haddr : PagesLow virtual size := fun q h1 h2 => by
    have := hlow (q - virtual / 4096) (by omega)
    omega
  -- the same call without the old entries
  obtain ⟨phys, hused, hnew, hdata⟩ : ∃ phys : Phys,
      (∀ f, m.frames.memoryMap.bit f = true → phys f = m.phys f) ∧
      (∀ f, NewIn m.log m' f → phys f = fun _ => .zero) ∧
      ∀ f, ¬ NewIn m.log m' f → phys f = m.phys f := exists_cleared .zero hbefore hne
  have htable : ∀ f p, s.place f = some p → phys f = m.phys f := fun f p hp =>
    hused f (U.good.forest.marked f p hp)
  have V := U.veil (E := True) (c := .zero) (fun e he => (hlog e he).1) hbefore hne hused hnew fun _ => hdata
  have hcall : ∀ j, j < size → CallPage virtual size (Addr.frame (add64 virtual (j * 0x1000))) :=
    fun j hj => by
      rw [(haddr.address hj).2]
      exact ⟨by omega, by omega⟩
  obtain ⟨s', g', hg, V'⟩ := V.allocFrom rfl (fun j _ hj => ⟨(haddr.address (by omega)).1, _, fun e he =>
    (hclear e he).2 _ (haddr.address (by omega)).1 (.inl (hcall j (by omega)))⟩) h (.refl m') hne
  have hto : ClearTo m.log m' (CallPage virtual size a.frame) a := fun e he => (hclear e he).2 a ha hR
  have hq : (False ∨ Touched (fun i => add64 virtual (i * 0x1000)) 0 size a.frame) ∨
      ¬ CallPage virtual size a.frame :=
    (Classical.em _).imp_left fun hc => .inr ((haddr.touched _).2 hc)
  -- the entries on the way to `a` have the same links, after the call and before
  have hafter : UserWritable a m' ↔ Paging.grants g'.phys g'.cr3 a.indices = true := by
    rw [userWritable_iff (V'.hardware trivial hplain (by decide) hto ha), V'.cr3]
    refine iff_of_eq (congrArg (· = true) (grants_same fun js i ks f hjs hw => ?_))
    obtain ⟨-, l, hl⟩ := indices_prefix hjs
    exact V'.even hto ha hjs (fun _ => hq) ((V'.walk hto ha hl).symm.trans hw)
  have hbeforeW : UserWritable a m ↔ Paging.grants phys m.cr3 a.indices = true := by
    rw [userWritable_iff (U.hardware hplain ha)]
    exact iff_of_eq (congrArg (· = true) (grants_same fun js i ks f => U.same_scribble htable ha))
  have htables : UserTables a m ↔ Paging.allows phys m.cr3 a.path = true := by
    refine iff_of_eq (congrArg (· = true) (allows_same fun js i ks f hjs => ?_))
    have hindices : a.indices = js ++ i :: (ks ++ [a.pt]) := by
      rw [indices_path, hjs, List.append_assoc, List.cons_append]
    exact U.same_scribble htable ha hindices
  obtain ⟨h1, h2, h3⟩ := V.space.allPages hlow hg V'.ok ha
  rw [hafter, hbeforeW, htables]
  exact ⟨h1, h2, h3⟩

end

end Paging

namespace Program

open Lib Paging Kheap Elf64

/-- `v` is a byte of the segment of the program header `ph`. -/
def SegmentByte (file : Mem) (ph v : Nat) : Prop :=
  pVaddr file ph ≤ v ∧ v < pVaddr file ph + pMemsz file ph

/-- The call for the segment maps the page of every byte but for those of one more page. -/
theorem segment_page {v n a : Nat} (h1 : v ≤ a) (h2 : a < v + n) :
    CallPage v (n / 4096 + 1) (a / 4096) ∨
      4096 < v % 4096 + n % 4096 ∧ a / 4096 = (v + n - 1) / 4096 ∧ ¬ CallPage v (n / 4096 + 1) (a / 4096) := by
  unfold CallPage
  omega

/-- **Every byte of a segment is mapped** exactly when its pages are no more than `load_executable`
asks for, or the one behind them is mapped, and the tables that were there are open to programs. -/
theorem segment_mapped_iff {s : Sys} {file : Mem} {ph : Nat} {m' : Machine}
    (h : Reach Paging.Init SpaceStep s) (fine : Fine s.kernel.machine.log)
    (plain : ∀ e ∈ s.kernel.machine.log, e.Plain)
    (hlow : pVaddr file ph + pMemsz file ph < 0xC0000000)
    (hrun : AllPages (pVaddr file ph) (pMemsz file ph / 4096 + 1) s.kernel.machine m')
    (hclear : CallClear (SegmentByte file ph) (pVaddr file ph) (pMemsz file ph / 4096 + 1)
      s.kernel.machine m') :
    (∀ v, SegmentByte file ph v → UserWritable v m') ↔
      (∀ v, SegmentByte file ph v → UserTables v s.kernel.machine) ∧
        (pVaddr file ph % 4096 + pMemsz file ph % 4096 ≤ 4096 ∨
          UserWritable (pVaddr file ph + pMemsz file ph - 1) s.kernel.machine) := by
  obtain ⟨sh, U⟩ := (SpacesOk.run h fine).userSpace fine
  have hlog : ∀ e ∈ s.kernel.machine.log, e.Ok ∧ e.Plain := fun e he => ⟨fine.ok e he, plain e he⟩
  unfold SegmentByte at *
  revert hlow hrun hclear
  generalize pVaddr file ph = v
  generalize pMemsz file ph = n
  intro hlow hrun hclear
  have hstart : ∀ j, j < n / 4096 + 1 → v + j * 4096 < 0xC0000000 := fun j hj => by omega
  have hframe : ∀ a : Nat, v ≤ a ∧ a < v + n → User a ∧ Addr.frame a = a / 4096 := fun a ha => by
    have hu : User a := show a < 0xC0000000 by omega
    exact ⟨hu, hu.lt.2.2⟩
  have hpages (a : Nat) (ha : v ≤ a ∧ a < v + n) :=
    U.callPages hstart hrun hlog hclear (hframe a ha).1 (.inr ha)
  constructor
  · intro hall
    refine ⟨fun a ha => (hpages a ha).1 (hall a ha), ?_⟩
    by_cases hfit : v % 4096 + n % 4096 ≤ 4096
    · exact .inl hfit
    · have hlast : v ≤ v + n - 1 ∧ v + n - 1 < v + n := by omega
      refine .inr (((hpages _ hlast).2.2 ?_).1 (hall _ hlast))
      rw [(hframe _ hlast).2]
      unfold CallPage
      omega
  · rintro ⟨htables, hfit⟩ a ha
    have hin := segment_page ha.1 ha.2
    rw [← (hframe a ha).2] at hin
    rcases hin with hin | ⟨hover, heq, hout⟩
    · exact (hpages a ha).2.1 hin (htables a ha)
    · have hlast : v ≤ v + n - 1 ∧ v + n - 1 < v + n := by omega
      have hw := hfit.resolve_left (by omega)
      have hindices : Addr.indices a = Addr.indices (v + n - 1) :=
        User.indices (hframe a ha).1 (hframe _ hlast).1 (heq.trans (hframe _ hlast).2.symm)
      refine ((hpages a ha).2.2 hout).2 ⟨?_, ?_⟩
      · rw [hindices]
        exact hw.grants
      · rw [hindices]
        exact hw.reached

/-! ## Two segments in a child's space -/

/-- A file with a program header for `[vaddr, vaddr + 2)` at 64. -/
def twoBytes (vaddr : Nat) : Mem :=
  ((((Mem.store (fun _ => 0) 64 4 1).store 80 8 vaddr).store 96 8 2).store 104 8 2)

/-- After the first fork, with the child's space loaded. -/
def childSpace : Option Sys :=
  (boot? fun _ _ => .zero).bind (runList exec [.kheapInit, .clonePml4t, .switchPaging 271])

/-- The call of `alloc_page` for the header of `twoBytes vaddr`. -/
def mapTwoBytes (vaddr : Nat) (s : Sys) : Option (Bool × Machine) :=
  allocFrom (fun i => add64 vaddr (i * 0x1000)) true 1 0 s.kernel.machine

theorem twoBytes_fields : (pVaddr (twoBytes 0x400000) 64 = 0x400000 ∧ pMemsz (twoBytes 0x400000) 64 = 2) ∧
    pVaddr (twoBytes 0x400FFF) 64 = 0x400FFF ∧ pMemsz (twoBytes 0x400FFF) 64 = 2 := by
  decide

theorem childSpace_maps : (childSpace.bind fun s => (mapTwoBytes 0x400FFF s).map fun r =>
    (r.1, decide (Fine r.2.log), decide (∀ e ∈ r.2.log, e.Plain),
      grants r.2.phys r.2.cr3 (Addr.indices 0x400FFF) &&
        (hardware r.2.phys r.2.cr3 (Addr.indices 0x400FFF)).isSome,
      Paging.translate r.2.phys r.2.cr3 0x401000)) = some (true, true, true, true, none) := by
  decide +kernel

/-- The call maps the same page for both. -/
theorem mapTwoBytes_start (s : Sys) : mapTwoBytes 0x400000 s = mapTwoBytes 0x400FFF s := by
  refine allocFrom_congr fun n => ?_
  unfold Addr.frame add64
  omega

theorem childSpace_run : ∃ s m, Reach Paging.Init SpaceStep s ∧ AllPages 0x400000 1 s.kernel.machine m ∧
    AllPages 0x400FFF 1 s.kernel.machine m ∧ Fine m.log ∧ (∀ e ∈ m.log, e.Plain) ∧
    UserWritable 0x400FFF m ∧ Paging.translate m.phys m.cr3 0x401000 = none := by
  obtain ⟨s, hs, h⟩ := Option.bind_eq_some_iff.1 childSpace_maps
  obtain ⟨⟨ok, m⟩, hm, h⟩ := Option.map_eq_some_iff.1 h
  simp only [Prod.mk.injEq, decide_eq_true_eq, Bool.and_eq_true] at h
  obtain ⟨rfl, fine, plain, ⟨hw, hreached⟩, hnone⟩ := h
  obtain ⟨s0, h0, hrun⟩ := Option.bind_eq_some_iff.1 hs
  have hreach : Reach Paging.Init SpaceStep s := by
    obtain ⟨s1, h1, hrun⟩ := Option.bind_eq_some_iff.1 hrun
    obtain ⟨s2, h2, hrun⟩ := Option.bind_eq_some_iff.1 hrun
    obtain ⟨s3, h3, hrun⟩ := Option.bind_eq_some_iff.1 hrun
    cases hrun
    exact (((Reach.start (init_boot h0)).next ⟨exec_step h1, trivial, nofun⟩).next
      ⟨exec_step h2, trivial, nofun⟩).next ⟨exec_step h3, trivial, nofun⟩
  exact ⟨s, m, hreach, (mapTwoBytes_start s).trans hm, hm, fine, plain, ⟨hw, hreached⟩, hnone⟩

/-- The theorem for a segment in one page. -/
theorem segment_mapped_onePage : ∃ s m, Reach Paging.Init SpaceStep s ∧
    ((∀ v, SegmentByte (twoBytes 0x400000) 64 v → UserWritable v m) ↔
      (∀ v, SegmentByte (twoBytes 0x400000) 64 v → UserTables v s.kernel.machine) ∧
        (pVaddr (twoBytes 0x400000) 64 % 4096 + pMemsz (twoBytes 0x400000) 64 % 4096 ≤ 4096 ∨
          UserWritable (pVaddr (twoBytes 0x400000) 64 + pMemsz (twoBytes 0x400000) 64 - 1)
            s.kernel.machine)) := by
  obtain ⟨s, m, hreach, hrun, -, fine, plain, -⟩ := childSpace_run
  obtain ⟨⟨hv, hn⟩, -⟩ := twoBytes_fields
  have hbefore := allocFrom_log hrun
  exact ⟨s, m, hreach, segment_mapped_iff hreach (fine.before hbefore)
    (fun e he => plain e (hbefore.subset he)) (by rw [hv, hn]; decide) (by rw [hv, hn]; exact hrun)
    (.of_ok fun e he => ⟨fine.ok e he, plain e he⟩)⟩

/-- **A segment with an unmapped byte**: of two bytes around the end of a page the second is not
mapped, and no old entry is in the way. -/
theorem segment_end_unmapped : ∃ s m, Reach Paging.Init SpaceStep s ∧
    AllPages (pVaddr (twoBytes 0x400FFF) 64) (pMemsz (twoBytes 0x400FFF) 64 / 4096 + 1)
      s.kernel.machine m ∧ (∀ e ∈ m.log, e.Ok ∧ e.Plain) ∧ UserWritable 0x400FFF m ∧
    SegmentByte (twoBytes 0x400FFF) 64 0x401000 ∧
    Paging.translate m.phys m.cr3 0x401000 = none ∧ ¬ UserWritable 0x401000 m := by
  obtain ⟨s, m, hreach, -, hrun, fine, plain, hw, hnone⟩ := childSpace_run
  obtain ⟨-, hv, hn⟩ := twoBytes_fields
  unfold SegmentByte
  rw [hv, hn]
  refine ⟨s, m, hreach, hrun, fun e he => ⟨fine.ok e he, plain e he⟩, hw, ⟨by decide, by decide⟩, hnone, fun hg => ?_⟩
  obtain ⟨n, hn⟩ := grants_walk hg.grants
  exact absurd (hn.symm.trans hnone) (by simp)

end Program
