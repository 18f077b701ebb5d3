import Jaos.Memory.KernelAgreement
import Jaos.Memory.Proof.CleanPages

/-!
# What `clean_user_space` leaves behind

"Preserves last 2 blocks for stacks", says its comment; the condition spares much more.
`clean_user_space_iff`: everything but the two stack pages is released exactly where `CleansAll` holds
of the tables before. Its main part is that no other page is mapped that the condition spares; the
rest asks that the entries that are cleared belong to their pages alone, that no two pages share a
frame, and that the frames' addresses fit 40 bits.

In a run the tables of the current space are a `Tree` (`SpacesOk.tree`), so only the spared pages and
the addresses are left to ask for (`Tree.cleansAll_iff`); a page at 2 GB stays behind
(`page_left_behind`).
-/

namespace Paging

open Lib Memman Kheap

/-- The last two pages of user space: "preserves last 2 blocks for stacks". -/
def StackPage (q : Nat) : Prop := q = 0xBFFFE ∨ q = 0xBFFFF

instance (q : Nat) : Decidable (StackPage q) := inferInstanceAs (Decidable (_ ∨ _))

/-- **Everything but the two stack pages is released**: the other user pages are not present, each
frame behind one of them is freed once, the stack pages and all that is not user space stay. -/
structure Released (m m' : Machine) : Prop where
  gone : ∀ q : Nat, q < 0xC0000 → ¬ StackPage q → translate m'.phys m'.cr3 (q * 0x1000) = none
  freed : ∃ frees : List Nat, frees.Nodup ∧
    (∀ n, n ∈ frees ↔ ∃ q : Nat, q < 0xC0000 ∧ ¬ StackPage q ∧
      translate m.phys m.cr3 (q * 0x1000) = some n) ∧
    m'.log = (frees.map (· * 0x1000)).reverse.map .freed ++ m.log ∧
    m'.frames = freeAll (frees.map (· * 0x1000)) m.frames ∧
    (∀ n ∈ frees, m'.frames.memoryMap.bit n = false) ∧
    m'.frames.usedBlocks = sub64 m.frames.usedBlocks frees.length
  stack : ∀ q : Nat, StackPage q →
    translate m'.phys m'.cr3 (q * 0x1000) = translate m.phys m.cr3 (q * 0x1000)
  kernel : ∀ b : Addr, 0xC0000 ≤ b.frame →
    translate m'.phys m'.cr3 b = translate m.phys m.cr3 b

/-- The entries of the pages that `clean_user_space` frees are no part of the way to a page that has to
stay: a stack page, one of the kernel or a table in the window. -/
def Apart (m : Machine) : Prop :=
  ∀ q < 0xC0000, ¬ Spared q → ∀ e, pageEntry m q = some e → (m.phys e.1 e.2).present = true →
    ∀ b : Addr, 0xC0000 ≤ b.frame ∨ StackPage b.frame → ∀ f, translate m.phys m.cr3 b = some f →
      ¬ Reads (next m.phys) m.cr3 b.indices e.1 e.2

/-- **When everything is released**: the first 512 gigabytes have a table; a page that is spared is
mapped, if at all, through the entry of one that is not; entries are apart, frames are shared with the
entry only, and they lie below 1 TB. -/
structure CleansAll (m : Machine) : Prop where
  low : ∃ d, next m.phys m.cr3 0 = some d
  reached : ∀ q < 0xC0000, Spared q → ¬ StackPage q → ∀ n,
    translate m.phys m.cr3 (q * 0x1000) = some n →
    ∃ q' < 0xC0000, ¬ Spared q' ∧ pageEntry m q = pageEntry m q'
  apart : Apart m
  once : ∀ q < 0xC0000, ∀ q' < 0xC0000, ¬ Spared q → ¬ Spared q' → ∀ n,
    translate m.phys m.cr3 (q * 0x1000) = some n → translate m.phys m.cr3 (q' * 0x1000) = some n →
    pageEntry m q = pageEntry m q'
  small : ∀ q < 0xC0000, ¬ Spared q → ∀ n, translate m.phys m.cr3 (q * 0x1000) = some n → n < 2 ^ 28

theorem stackPage_spared {q : Nat} (h : StackPage q) : q < 0xC0000 ∧ Spared q := by
  rcases h with rfl | rfl <;> decide

/-! ## The state at the end -/

/-- The frame behind an entry. -/
def frameOf (m : Machine) (e : Nat × Nat) : Nat := target m.phys e.1 e.2

section
variable {m m' : Machine} {es : List (Nat × Nat)} {N q n : Nat} {e : Nat × Nat}

/-- A mapped page, its entry and its frame. -/
theorem translate_some_iff : translate m.phys m.cr3 (q * 0x1000) = some n ↔
    ∃ e, pageEntry m q = some e ∧ (m.phys e.1 e.2).present = true ∧ frameOf m e = n := by
  rw [translate_pageEntry, Option.bind_eq_some_iff]
  simp only [next_some, frameOf, target]

/-- Pages have the entries that they had. -/
theorem Static.pageEntry (S : Static m m') (hself : next m.phys m.cr3 511 = some m.cr3)
    (hm : Sub m' m) (hq : q < 0xC0000) : pageEntry m' q = Paging.pageEntry m q := by
  rw [pageEntry_eq hq, pageEntry_eq hq, S.tables hself hm (by simp)]
  simp only [List.mem_cons, List.not_mem_nil, or_false, forall_eq_or_imp, forall_eq]
  omega

/-- **A page is gone** exactly when its entry was not present or is among those cleared. -/
theorem CleanedTo.gone_iff (C : CleanedTo m N es m') (S : Static m m')
    (hself : next m.phys m.cr3 511 = some m.cr3) (hq : q < 0xC0000) :
    translate m'.phys m'.cr3 (q * 0x1000) = none ↔
      ∀ e, pageEntry m q = some e → (m.phys e.1 e.2).present = true → e ∈ es := by
  rw [translate_pageEntry, S.pageEntry hself C.sub hq]
  cases he : pageEntry m q with
  | none => simp
  | some e =>
    rw [Option.bind_some]
    constructor
    · rintro hnone e' he' hp
      obtain rfl := Option.some.inj he'
      by_contra hmem
      rw [C.next_of_not_mem hmem, next_none, hp] at hnone
      cases hnone
    · intro h
      by_cases hmem : e ∈ es
      · exact C.gone e hmem
      · rw [C.next_of_not_mem hmem, next_none]
        simpa using fun hp => hmem (h e rfl hp)

/-- **A translation that stays**: the walk looks at no entry that is cleared. -/
theorem CleanedTo.translate_eq (C : CleanedTo m N es m') {b : Addr}
    (h : ∀ f, translate m.phys m.cr3 b = some f → ∀ e ∈ es,
      ¬ Reads (next m.phys) m.cr3 b.indices e.1 e.2) :
    translate m'.phys m'.cr3 b = translate m.phys m.cr3 b := by
  rw [C.cr3]
  cases hw : translate m.phys m.cr3 b with
  | none =>
    cases hw' : translate m'.phys m.cr3 b with
    | none => rfl
    | some n =>
      rw [translate, C.sub.walk hw'] at hw
      cases hw
  | some f =>
    rw [← hw]
    exact walk_congr fun t j hr => C.next_of_not_mem (e := (t, j)) fun he => h f hw _ he hr

/-- Where the entries are apart, what has to stay does. -/
theorem Apart.translate_eq (A : Apart m) (C : CleanedTo m N es m') (hN : N ≤ 0xC0000) {b : Addr}
    (hb : 0xC0000 ≤ b.frame ∨ StackPage b.frame) :
    translate m'.phys m'.cr3 b = translate m.phys m.cr3 b := by
  refine C.translate_eq fun f hf e he => ?_
  obtain ⟨⟨q, hq, hs, hqe⟩, hp⟩ := (C.mem e).1 he
  exact A q (by omega) hs e hqe hp b hb f hf

/-- **`clean_user_space` gets to its end** where the entries are apart. -/
theorem Apart.run {d : Nat} (A : Apart m) (hself : next m.phys m.cr3 511 = some m.cr3)
    (hlow : next m.phys m.cr3 0 = some d) :
    ∃ m' es, cleanUserSpace m = some m' ∧ Static m m' ∧ CleanedTo m 0xC0000 es m' := by
  have hd : walk (next m.phys) m.cr3 [0] = some d := walk_cons hlow
  rcases cleanUserSpace_gets hself hd m (.start m) with ⟨m', hrun, S, es, C⟩ | ⟨b, ⟨hlost, N, es, hN, C⟩, -⟩
  · exact ⟨m', es, hrun, S, C⟩
  · exact absurd (fun b hb => A.translate_eq C hN (.inl hb)) hlost

/-- A run that keeps every translation outside user space loses none on the way. -/
theorem static_run (hself : next m.phys m.cr3 511 = some m.cr3) (hrun : cleanUserSpace m = some m')
    (S : Static m m') : ∃ es, CleanedTo m 0xC0000 es m' := by
  obtain ⟨d, hd⟩ := cleanUserSpace_low hself hrun
  rcases cleanUserSpace_gets hself hd m (.start m) with ⟨m1, h1, -, es, C⟩ | ⟨b, ⟨hlost, N, es, hN, C⟩, hsub⟩
  · rw [hrun] at h1
    exact ⟨es, Option.some.inj h1 ▸ C⟩
  · exact absurd (S.of_sub C.sub (hsub m' hrun)) hlost

/-! ## Both directions -/

/-- The entries cleared, by the frames behind them. -/
theorem CleanedTo.mem_frames (C : CleanedTo m 0xC0000 es m') :
    n ∈ es.map (frameOf m) ↔
      ∃ q < 0xC0000, ¬ Spared q ∧ translate m.phys m.cr3 (q * 0x1000) = some n := by
  rw [List.mem_map]
  constructor
  · rintro ⟨e, he, rfl⟩
    obtain ⟨⟨q, hq, hs, hqe⟩, hp⟩ := (C.mem e).1 he
    exact ⟨q, hq, hs, translate_some_iff.2 ⟨e, hqe, hp, rfl⟩⟩
  · rintro ⟨q, hq, hs, hn⟩
    obtain ⟨e, hqe, hp, rfl⟩ := translate_some_iff.1 hn
    exact ⟨e, (C.mem e).2 ⟨⟨q, hq, hs, hqe⟩, hp⟩, rfl⟩

theorem freedAddr_eq : freedAddr m e = frameOf m e * 0x1000 % 2 ^ 40 := rfl

theorem CleansAll.released (A : CleansAll m) (hself : next m.phys m.cr3 511 = some m.cr3)
    (hw : m.frames.usedBlocks < 2 ^ 64) : ∃ m', cleanUserSpace m = some m' ∧ Released m m' := by
  obtain ⟨d, hlow⟩ := A.low
  obtain ⟨m', es, hrun, S, C⟩ := A.apart.run hself hlow
  have hmapped : ∀ e ∈ es, ∃ q < 0xC0000, ¬ Spared q ∧ pageEntry m q = some e ∧
      translate m.phys m.cr3 (q * 0x1000) = some (frameOf m e) := fun e he => by
    obtain ⟨⟨q, hq, hs, hqe⟩, hp⟩ := (C.mem e).1 he
    exact ⟨q, hq, hs, hqe, translate_some_iff.2 ⟨e, hqe, hp, rfl⟩⟩
  -- the addresses are those of the frames
  have haddr : es.map (freedAddr m) = (es.map (frameOf m)).map (· * 0x1000) := by
    rw [List.map_map]
    refine List.map_congr_left fun e he => ?_
    obtain ⟨q, hq, hs, -, hn⟩ := hmapped e he
    exact freedAddr_eq.trans (address_eq_iff.2 (A.small q hq hs _ hn))
  have honce : (es.map (frameOf m)).Nodup := by
    refine C.once.map_on fun e he e' he' hee => ?_
    obtain ⟨q, hq, hs, hqe, hn⟩ := hmapped e he
    obtain ⟨q', hq', hs', hqe', hn'⟩ := hmapped e' he'
    rw [← hee] at hn'
    have := A.once q hq q' hq' hs hs' _ hn hn'
    rw [hqe, hqe'] at this
    exact Option.some.inj this
  have hframes : m'.frames = freeAll ((es.map (frameOf m)).map (· * 0x1000)) m.frames :=
    haddr ▸ C.frames
  refine ⟨m', hrun, fun q hq hst => ?_, ⟨es.map (frameOf m), honce, fun n => ?_, haddr ▸ C.log, hframes,
    fun n hn => ?_, ?_⟩, fun q hst => ?_, S⟩
  · rw [C.gone_iff S hself hq]
    intro e he hp
    by_cases hs : Spared q
    · obtain ⟨q', hq', hs', hee⟩ := A.reached q hq hs hst _ (translate_some_iff.2 ⟨e, he, hp, rfl⟩)
      exact (C.mem e).2 ⟨⟨q', hq', hs', hee ▸ he⟩, hp⟩
    · exact (C.mem e).2 ⟨⟨q, hq, hs, he⟩, hp⟩
  · rw [C.mem_frames]
    constructor
    · rintro ⟨q, hq, hs, hn⟩
      exact ⟨q, hq, fun hst => hs (stackPage_spared hst).2, hn⟩
    · rintro ⟨q, hq, hst, hn⟩
      by_cases hs : Spared q
      · obtain ⟨q', hq', hs', hee⟩ := A.reached q hq hs hst n hn
        obtain ⟨e, he, hp⟩ := translate_some_iff.1 hn
        exact ⟨q', hq', hs', translate_some_iff.2 ⟨e, hee ▸ he, hp⟩⟩
      · exact ⟨q, hq, hs, hn⟩
  · have hmem : n ∈ ((es.map (frameOf m)).map (· * 0x1000)).map (· / Memman.memBlockSize) :=
      List.mem_map.2 ⟨n * 0x1000, List.mem_map.2 ⟨n, hn, rfl⟩, Nat.mul_div_cancel n (by decide)⟩
    rw [hframes, freeAll_bit, decide_eq_true hmem]
    rfl
  · rw [hframes, freeAll_usedBlocks hw, List.length_map]
  · have hq := stackPage_spared hst
    exact A.apart.translate_eq C (Nat.le_refl _) (.inr (by rwa [pageAddr_frame hq.1]))

theorem Released.cleansAll (R : Released m m') (hself : next m.phys m.cr3 511 = some m.cr3)
    (hrun : cleanUserSpace m = some m') : CleansAll m := by
  have S : Static m m' := R.kernel
  obtain ⟨es, C⟩ := static_run hself hrun S
  obtain ⟨d, hd⟩ := cleanUserSpace_low hself hrun
  obtain ⟨frees, honce, hmem, hlog, -⟩ := R.freed
  have haddr : es.map (freedAddr m) = frees.map (· * 0x1000) := by
    rw [C.log] at hlog
    exact List.reverse_inj.1 (List.map_injective_iff.2 (fun _ _ h => Event.freed.inj h)
      (List.append_cancel_right hlog))
  have hinj : ∀ e ∈ es, ∀ e' ∈ es, freedAddr m e = freedAddr m e' → e = e' := by
    have : (es.map (freedAddr m)).Nodup := by
      rw [haddr]
      exact honce.map fun a b h => Nat.eq_of_mul_eq_mul_right (by decide) h
    exact fun e he e' he' => List.inj_on_of_nodup_map this he he'
  have hcleared : ∀ q < 0xC0000, ¬ Spared q → ∀ e, pageEntry m q = some e →
      (m.phys e.1 e.2).present = true → e ∈ es := fun q hq hs e he hp =>
    (C.mem e).2 ⟨⟨q, hq, hs, he⟩, hp⟩
  refine ⟨?_, fun q hq hs hst n hn => ?_, fun q hq hs e he hp b hb f hf hr => ?_,
    fun q hq q' hq' hs hs' n hn hn' => ?_, fun q hq hs n hn => ?_⟩
  · obtain ⟨d, hd, -⟩ := Option.bind_eq_some_iff.1 hd
    exact ⟨d, hd⟩
  · obtain ⟨e, he, hp, -⟩ := translate_some_iff.1 hn
    obtain ⟨⟨q', hq', hs', he'⟩, -⟩ :=
      (C.mem e).1 ((C.gone_iff S hself hq).1 (R.gone q hq hst) e he hp)
    exact ⟨q', hq', hs', he.trans he'.symm⟩
  · -- the walk is still there, so its entries are
    have hkept : translate m'.phys m'.cr3 b = some f := by
      rw [← hf]
      rcases hb with hb | hb
      · exact R.kernel b hb
      · have hpage : ∀ phys r, translate phys r b = translate phys r (b.frame * 0x1000) := fun phys r => by
          rw [translate, translate]
          congr 1
          unfold Addr.indices Addr.pml4 Addr.pdp Addr.pd Addr.pt Addr.frame
          simp only [List.cons.injEq, and_true]
          omega
        rw [hpage, hpage]
        exact R.stack _ hb
    rw [C.cr3] at hkept
    obtain ⟨k, hk⟩ := C.sub.reads hkept hr
    rw [C.gone e (hcleared q hq hs e he hp)] at hk
    cases hk
  · obtain ⟨e, he, hp, hne⟩ := translate_some_iff.1 hn
    obtain ⟨e', he', hp', hne'⟩ := translate_some_iff.1 hn'
    have := hinj e (hcleared q hq hs e he hp) e' (hcleared q' hq' hs' e' he' hp')
      (by rw [freedAddr_eq, freedAddr_eq, hne, hne'])
    rw [he, he', this]
  · have hfree := (hmem n).2 ⟨q, hq, fun hst => hs (stackPage_spared hst).2, hn⟩
    have hin : n * 0x1000 ∈ es.map (freedAddr m) := by
      rw [haddr]
      exact List.mem_map.2 ⟨n, hfree, rfl⟩
    obtain ⟨e, -, he⟩ := List.mem_map.1 hin
    rw [freedAddr_eq] at he
    omega

end

/-- **`clean_user_space` releases everything but the two stack pages** exactly where the tables are as
`CleansAll` says. -/
theorem clean_user_space_iff {m : Machine} (hself : next m.phys m.cr3 511 = some m.cr3)
    (hw : m.frames.usedBlocks < 2 ^ 64) :
    (∃ m', cleanUserSpace m = some m' ∧ Released m m') ↔ CleansAll m :=
  ⟨fun ⟨_, hrun, R⟩ => R.cleansAll hself hrun, fun A => A.released hself hw⟩

/-! ## The current space of a run -/

/-- **An address space**: the tables of the user pages form a tree below the root, which contains
itself, and a frame is mapped by one user page only. -/
structure Tree (m : Machine) : Prop where
  self : next m.phys m.cr3 511 = some m.cr3
  low : ∃ d, next m.phys m.cr3 0 = some d
  once : ∀ q : Nat, q < 0xC0000 → ∀ t, walk (next m.phys) m.cr3 (Addr.path (q * 0x1000)) = some t →
    t ≠ m.cr3 ∧ ∀ b : Addr, b.pml4 ≠ 511 → b.frame ≠ q →
      ¬ Reads (next m.phys) m.cr3 b.indices t (Addr.pt (q * 0x1000))
  frames : ∀ q q' : Nat, q < 0xC0000 → q' < 0xC0000 → ∀ n, translate m.phys m.cr3 (q * 0x1000) = some n →
    translate m.phys m.cr3 (q' * 0x1000) = some n → q = q'

section
variable {kpd : Nat} {sh : Shape} {m : Machine} {s : Sys} {b : Prop}

/-- A walk that looks at the entry of a page is a walk to that page. -/
theorem Good.reads_page (G : Good sh m) (h : sh.place m.cr3 = some (.root m.cr3)) {a b : Addr}
    {t : Nat} (ha : a.pml4 ≠ 511) (hb : b.pml4 ≠ 511)
    (ht : walk (next m.phys) m.cr3 a.path = some t)
    (hr : Reads (next m.phys) m.cr3 b.indices t a.pt) : b.frame = a.frame := by
  have hplace := (G.walk_path h ha (List.append_nil _).symm ht).1
  obtain ⟨js, ks, hsplit, hw⟩ := hr
  have hlen := congrArg List.length hsplit
  simp only [Addr.indices, List.length_cons, List.length_nil, List.length_append] at hlen
  -- the walk to the table follows the first indices of `b`
  have hpre : ∃ ks', b.path = js ++ ks' := by
    have hp : b.path <+: b.indices := ⟨[b.pt], rfl⟩
    have hj : js <+: b.indices := ⟨_, hsplit.symm⟩
    obtain ⟨ks', hk⟩ := List.prefix_of_prefix_length_le hj hp
      (by rw [show b.path.length = 3 from rfl]; omega)
    exact ⟨ks', hk.symm⟩
  obtain ⟨ks', hk⟩ := hpre
  have hplace' := (G.walk_path h hb hk hw).1
  rw [hplace] at hplace'
  have halong := Option.some.inj hplace'
  have h1 := congrArg Place.level halong
  rw [Place.along_level, Place.along_level, show a.path.length = 3 from rfl] at h1
  have hk0 := congrArg List.length hk
  rw [List.length_append, show b.path.length = 3 from rfl] at hk0
  have hroot : (Place.root m.cr3).level = 4 := rfl
  obtain rfl : ks' = [] := List.length_eq_zero_iff.1 (by omega)
  rw [List.append_nil] at hk
  subst hk
  have hpt : b.pt = a.pt := by
    have : b.path ++ [b.pt] = b.path ++ a.pt :: ks := hsplit
    exact (List.cons.inj (List.append_cancel_left this)).1
  rw [← sub_path m.cr3 a, ← sub_path m.cr3 b, halong, hpt]

/-- **The current space is a tree.** -/
theorem Good.tree (G : Good sh m) (h : IsSpace kpd sh m m.cr3)
    (hlive : ∀ q, sh.live q → 0xC0000 ≤ q) : Tree m := by
  have h4 : ∀ q : Nat, q < 0xC0000 → Addr.pml4 (q * 0x1000) ≠ 511 := fun q hq => by
    rw [(List.cons.inj (pageAddr_indices hq)).1]
    decide
  obtain ⟨d, hd, -⟩ := h.low
  refine ⟨h.self, ⟨d, hd⟩, fun q hq t ht => ⟨?_, fun b hb hne hr => hne ?_⟩,
    fun q q' hq hq' n hn hn' => ?_⟩
  · rintro rfl
    have hplace := (G.walk_path h.place (h4 q hq) (List.append_nil _).symm ht).1
    rw [h.place] at hplace
    have := congrArg Place.level (Option.some.inj hplace)
    rw [Place.along_level] at this
    cases this
  · rw [G.reads_page h.place (h4 q hq) hb ht hr, pageAddr_frame hq]
  · obtain ⟨t, hp, hm⟩ := G.user_maps h hlive (show q * 0x1000 < 0xC0000000 by omega) hn
    obtain ⟨t', hp', hm'⟩ := G.user_maps h hlive (show q' * 0x1000 < 0xC0000000 by omega) hn'
    obtain ⟨rfl, hpt⟩ := G.forest.once _ _ _ _ _ hm hm'
    rw [hp] at hp'
    simp only [Option.some.injEq, Place.mk.injEq, true_and] at hp'
    unfold Addr.pt at hpt
    omega

/-- In every state of a run whose tables are made of frames without entries. -/
theorem SpacesOk.tree (h : SpacesOk b s) (fine : Fine s.kernel.machine.log) :
    Tree s.kernel.machine := by
  obtain ⟨kpd, sh, R, -⟩ := h
  exact R.good.tree R.space fun q hq => R.live_kernel fine hq

end

/-! ## The theorem in a run -/

/-- A page with given indices, another one than `q`. -/
theorem exists_page {js : List Nat} (hlen : js.length ≤ 3) (hlt : ∀ i ∈ js, i < 512)
    (hhead : js.head? ≠ some 511) (q : Nat) :
    ∃ (b : Addr) (ks : List Nat), b.pml4 ≠ 511 ∧ b.frame ≠ q ∧ b.indices = js ++ ks := by
  have hx : (q + 1) % 512 < 512 := Nat.mod_lt _ (by decide)
  have key : ∀ w x y, w < 512 → x < 512 → y < 512 → w ≠ 511 →
      ∃ b : Addr, b.pml4 ≠ 511 ∧ b.frame ≠ q ∧ b.indices = [w, x, y, (q + 1) % 512] := by
    intro w x y hw hx' hy h
    have hb := Addr.indices_ofIndices hw hx' hy hx
    refine ⟨_, fun h' => h ((List.cons.inj hb).1.symm.trans h'), ?_, hb⟩
    unfold Addr.frame Addr.ofIndices
    omega
  match js, hlen with
  | [], _ =>
    obtain ⟨b, h1, h2, h3⟩ := key 0 0 0 (by decide) (by decide) (by decide) (by decide)
    exact ⟨b, _, h1, h2, h3⟩
  | [w], _ =>
    obtain ⟨b, h1, h2, h3⟩ := key w 0 0 (hlt w (by simp)) (by decide) (by decide)
      (by simpa using hhead)
    exact ⟨b, _, h1, h2, h3⟩
  | [w, x], _ =>
    obtain ⟨b, h1, h2, h3⟩ := key w x 0 (hlt w (by simp)) (hlt x (by simp)) (by decide)
      (by simpa using hhead)
    exact ⟨b, _, h1, h2, h3⟩
  | [w, x, y], _ =>
    obtain ⟨b, h1, h2, h3⟩ := key w x y (hlt w (by simp)) (hlt x (by simp)) (hlt y (by simp))
      (by simpa using hhead)
    exact ⟨b, _, h1, h2, h3⟩

section
variable {m : Machine} {q q' : Nat} {e : Nat × Nat}

/-- The table and the index of a page's entry. -/
theorem pageEntry_path (he : pageEntry m q = some e) :
    walk (next m.phys) m.cr3 (Addr.path (q * 0x1000)) = some e.1 ∧ e.2 = Addr.pt (q * 0x1000) := by
  obtain ⟨t, ht, rfl⟩ := Option.map_eq_some_iff.1 he
  exact ⟨ht, rfl⟩

/-- A walk below the root that may start in the window looks at no entry of a page but the last of
four. -/
theorem Tree.not_reads (T : Tree m) (hq : q < 0xC0000) (he : pageEntry m q = some e) {is : List Nat}
    (hlen : is.length ≤ 3) (hlt : ∀ i ∈ is, i < 512) :
    ¬ Reads (next m.phys) m.cr3 is e.1 e.2 := by
  obtain ⟨ht, hpt⟩ := pageEntry_path he
  obtain ⟨hroot, honce⟩ := T.once q hq e.1 ht
  rw [hpt]
  induction is with
  | nil =>
    rintro ⟨js, ks, h, -⟩
    simp at h
  | cons i is ih =>
    intro hr
    by_cases hi : i = 511
    · subst hi
      rcases hr.cases with ⟨h, -⟩ | ⟨w, hw, hr⟩
      · exact hroot h
      · obtain rfl := Option.some.inj (T.self.symm.trans hw)
        exact ih (by simp at hlen; omega) (fun j hj => hlt j (List.mem_cons_of_mem _ hj)) hr
    · obtain ⟨b, ks, hb, hne, hbi⟩ := exists_page hlen hlt (by simpa using hi) q
      exact honce b hb hne (hbi ▸ hr.append)

theorem Tree.apart (T : Tree m) : Apart m := by
  intro q hq hs e he _ b hb f _ hr
  obtain ⟨ht, hpt⟩ := pageEntry_path he
  obtain ⟨hroot, honce⟩ := T.once q hq e.1 ht
  have hne : b.frame ≠ q := by
    rcases hb with hb | hb
    · omega
    · rintro rfl
      exact hs (stackPage_spared hb).2
  by_cases h4 : b.pml4 = 511
  · -- an address of the window walks along three indices from the root
    rw [Addr.indices, h4] at hr
    rcases hr.cases with ⟨h, -⟩ | ⟨w, hw, hr⟩
    · exact hroot h
    · obtain rfl := Option.some.inj (T.self.symm.trans hw)
      exact T.not_reads hq he (by simp) (fun i hi => b.indices_lt i (List.mem_cons_of_mem _ hi)) hr
  · exact honce b h4 hne (hpt ▸ hr)

/-- Every page has an entry of its own. -/
theorem Tree.entry_inj (T : Tree m) (hq : q < 0xC0000) (hq' : q' < 0xC0000)
    (he : pageEntry m q = some e) (he' : pageEntry m q' = some e) : q = q' := by
  obtain ⟨ht, hpt⟩ := pageEntry_path he
  obtain ⟨ht', hpt'⟩ := pageEntry_path he'
  by_contra hne
  refine (T.once q hq e.1 ht).2 (q' * 0x1000) ?_ (by rw [pageAddr_frame hq']; exact Ne.symm hne)
    ⟨Addr.path (q' * 0x1000), [], ?_, ht'⟩
  · rw [(List.cons.inj (pageAddr_indices hq')).1]
    decide
  · rw [← hpt, hpt']
    rfl

/-- **In a run** the pages that are spared are all there is to ask for, and the addresses. -/
theorem Tree.cleansAll_iff (T : Tree m) : CleansAll m ↔
    (∀ q < 0xC0000, Spared q → ¬ StackPage q → translate m.phys m.cr3 (q * 0x1000) = none) ∧
      ∀ q < 0xC0000, ¬ Spared q → ∀ n, translate m.phys m.cr3 (q * 0x1000) = some n → n < 2 ^ 28 := by
  constructor
  · refine fun A => ⟨fun q hq hs hst => Option.eq_none_iff_forall_ne_some.2 fun n hn => ?_, A.small⟩
    obtain ⟨q', hq', hs', hee⟩ := A.reached q hq hs hst n hn
    obtain ⟨e, he, -⟩ := translate_some_iff.1 hn
    exact hs' (T.entry_inj hq hq' he (hee ▸ he) ▸ hs)
  · rintro ⟨hnone, hsmall⟩
    refine ⟨T.low, fun q hq hs hst n hn => ?_, T.apart, fun q hq q' hq' _ _ n hn hn' => ?_, hsmall⟩
    · rw [hnone q hq hs hst] at hn
      cases hn
    · rw [T.frames q q' hq hq' n hn hn']

/-- A page that is spared stays. -/
theorem Tree.spared_stays {m' : Machine} {es : List (Nat × Nat)} (T : Tree m)
    (C : CleanedTo m 0xC0000 es m') (hq : q < 0xC0000) (hs : Spared q) :
    translate m'.phys m'.cr3 (q * 0x1000) = translate m.phys m.cr3 (q * 0x1000) := by
  refine C.translate_eq fun f hf e he hr => ?_
  obtain ⟨⟨q', hq', hs', he'⟩, -⟩ := (C.mem e).1 he
  obtain ⟨ht, hpt⟩ := pageEntry_path he'
  refine (T.once q' hq' e.1 ht).2 (q * 0x1000) ?_ (fun h => ?_) (hpt ▸ hr)
  · rw [(List.cons.inj (pageAddr_indices hq)).1]
    decide
  · rw [pageAddr_frame hq] at h
    exact hs' (h ▸ hs)

end

/-! ## A page released -/

/-- One page at 0x1000. -/
def firstPageSpace : Option Sys := (boot? fun _ _ => .zero).bind (runList userExec [.allocPage 0x1000 1])

/-- Its tables have no other user page. -/
structure OnlyFirst (m : Machine) : Prop where
  low : next m.phys m.cr3 0 = some 257
  dir : ∀ i, i < 3 → next m.phys 257 i = if i = 0 then some 262 else none
  table : ∀ z, z < 512 → next m.phys 262 z = if z = 0 then some 263 else none
  page : ∀ y, y < 512 → next m.phys 263 y = if y = 1 then some 261 else none

instance (m : Machine) : Decidable (OnlyFirst m) :=
  decidable_of_iff (_ ∧ _ ∧ _ ∧ _)
    ⟨fun ⟨h1, h2, h3, h4⟩ => ⟨h1, h2, h3, h4⟩, fun ⟨h1, h2, h3, h4⟩ => ⟨h1, h2, h3, h4⟩⟩

theorem OnlyFirst.page_eq {m : Machine} {q n : Nat} (h : OnlyFirst m) (hq : q < 0xC0000)
    (hn : translate m.phys m.cr3 (q * 0x1000) = some n) : q = 1 ∧ n = 261 := by
  rw [translate, pageAddr_indices hq, walk_cons h.low] at hn
  obtain ⟨t, ht, hn⟩ := Option.bind_eq_some_iff.1 hn
  rw [h.dir _ (by omega)] at ht
  obtain ⟨hi, ht⟩ := Option.ite_none_right_eq_some.1 ht
  cases ht
  obtain ⟨t, ht, hn⟩ := Option.bind_eq_some_iff.1 hn
  rw [h.table _ (by omega)] at ht
  obtain ⟨hz, ht⟩ := Option.ite_none_right_eq_some.1 ht
  cases ht
  obtain ⟨t, ht, hn⟩ := Option.bind_eq_some_iff.1 hn
  rw [h.page _ (by omega)] at ht
  obtain ⟨hy, ht⟩ := Option.ite_none_right_eq_some.1 ht
  cases ht
  cases hn
  exact ⟨by omega, rfl⟩

/-- The theorem for this space: the page is released. -/
theorem clean_user_space_firstPage : ∃ s m', firstPageSpace = some s ∧
    translate s.kernel.machine.phys s.kernel.machine.cr3 (1 * 0x1000) = some 261 ∧
    cleanUserSpace s.kernel.machine = some m' ∧ Released s.kernel.machine m' := by
  have hrun : (firstPageSpace.map fun s => (decide (Fine s.kernel.machine.log),
      decide (s.kernel.machine.frames.usedBlocks < 2 ^ 64), decide (OnlyFirst s.kernel.machine),
      translate s.kernel.machine.phys s.kernel.machine.cr3 (1 * 0x1000))) =
      some (true, true, true, some 261) := by
    decide +kernel
  obtain ⟨s, hs, h⟩ := Option.map_eq_some_iff.1 hrun
  simp only [Prod.mk.injEq, decide_eq_true_eq] at h
  obtain ⟨fine, hused, honly, hpage⟩ := h
  obtain ⟨s0, h0, hrun⟩ := Option.bind_eq_some_iff.1 hs
  have hreach : Reach Init LowStep s :=
    .of_list (fun _ _ _ => userExec_step) (.start (init_boot h0)) hrun
  have T := (SpacesOk.reach hreach fine).tree fine
  have hnot : ¬ Spared 1 := by decide
  obtain ⟨m', hclean, R⟩ := (clean_user_space_iff T.self hused).2 (T.cleansAll_iff.2
    ⟨fun q hq hs _ => Option.eq_none_iff_forall_ne_some.2 fun n hn =>
      hnot ((honly.page_eq hq hn).1 ▸ hs),
    fun q hq _ n hn => by rw [(honly.page_eq hq hn).2]; decide⟩)
  exact ⟨s, m', hs, hpage, hclean, R⟩

/-! ## A page left behind -/

/-- One page at 2 GB. -/
def thirdGigabyte : Option Sys :=
  (boot? fun _ _ => .zero).bind (runList userExec [.allocPage 0x80000000 1])

theorem thirdGigabyte_page : (thirdGigabyte.map fun s => (decide (Fine s.kernel.machine.log),
    decide (s.kernel.machine.frames.usedBlocks < 2 ^ 64),
    translate s.kernel.machine.phys s.kernel.machine.cr3 0x80000000)) = some (true, true, some 261) := by
  decide +kernel

theorem thirdGigabyte_tree : ∃ s, thirdGigabyte = some s ∧ Reach Init LowStep s ∧
    Tree s.kernel.machine ∧ s.kernel.machine.frames.usedBlocks < 2 ^ 64 ∧
    translate s.kernel.machine.phys s.kernel.machine.cr3 0x80000000 = some 261 := by
  obtain ⟨s, hs, h⟩ := Option.map_eq_some_iff.1 thirdGigabyte_page
  simp only [Prod.mk.injEq, decide_eq_true_eq] at h
  obtain ⟨fine, hused, hpage⟩ := h
  obtain ⟨s0, h0, hrun⟩ := Option.bind_eq_some_iff.1 hs
  have hreach : Reach Init LowStep s :=
    .of_list (fun _ _ _ => userExec_step) (.start (init_boot h0)) hrun
  exact ⟨s, hs, hreach, (SpacesOk.reach hreach fine).tree fine, hused, hpage⟩

/-- **A page left behind**: it is none of the two stack pages, and still mapped. -/
theorem page_left_behind : ∃ s m', Reach Init UserStep s ∧ cleanUserSpace s.kernel.machine = some m' ∧
    ¬ StackPage 0x80000 ∧ translate m'.phys m'.cr3 (0x80000 * 0x1000) = some 261 := by
  obtain ⟨s, -, hreach, T, -, hpage⟩ := thirdGigabyte_tree
  obtain ⟨d, hlow⟩ := T.low
  obtain ⟨m', es, hrun, -, C⟩ := T.apart.run T.self hlow
  refine ⟨s, m', hreach.mono fun _ _ _ h => h.1, hrun, by decide, ?_⟩
  rw [T.spared_stays C (by decide) (by decide)]
  exact hpage

end Paging
