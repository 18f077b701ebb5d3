import Jaos.Lib.Chain
import Jaos.Lib.Walk

/-!
# The tables of all address spaces

`Forest s E used`: the frames that are tables, each with its `Place` (the level, the space it serves
and the part of the address space it covers), lead along the edges `E` only to tables in the right
place, and from level 1 to pages. Tables and pages are marked as used; a page that is not in a live
block of the kernel heap is mapped by one entry only and is no table. `s` also knows the frames in
hand (`held`): taken from the allocator or from the heap, not linked yet.

All that the memory manager does to the tables is made of the steps below: a frame is taken
(`Forest.hold`, `Forest.take`), becomes a table (`Forest.adopt`), is linked (`Forest.edge`), is
mapped (`Forest.map`) or unmapped and freed (`Forest.unmap`). `Shape.Le` and `Keeps` say what
such steps leave alone.
-/

namespace Paging

open Lib

/-! ## Places -/

/-- The level of a table, the root of the space it serves (none if it serves all) and the number of
the region it covers. -/
structure Place where
  level : Nat
  owner : Option Nat
  region : Nat

namespace Place

def root (r : Nat) : Place := ⟨4, some r, 0⟩

/-- The region behind entry `i`; the number of a page at level 1. -/
def sub (p : Place) (i : Nat) : Nat := p.region * 512 + i

/-- The place of the table behind entry `i`. The table for the gigabyte from 3 GB on serves all
spaces. -/
def child (p : Place) (i : Nat) : Place :=
  ⟨p.level - 1, if p.level = 3 ∧ p.sub i = 3 then none else p.owner, p.sub i⟩

/-- The place at the end of a path. -/
def along (p : Place) (is : List Nat) : Place := is.foldl child p

end Place

/-- What is known about the frames and pages besides memory: the tables, the frames in hand and the
pages of live heap blocks. `backed` says whether live pages keep their frames. -/
structure Shape where
  place : Nat → Option Place
  held : Nat → Prop
  live : Nat → Prop
  backed : Prop

namespace Shape

/-- Entry `i` of the table `f` maps a page that is in no live block to the frame `n`. -/
def Maps (s : Shape) (E : Nat → Nat → Option Nat) (f i n : Nat) : Prop :=
  ∃ p, s.place f = some p ∧ p.level = 1 ∧ i < 512 ∧ ¬ s.live (p.sub i) ∧ E f i = some n

def hold (s : Shape) (n : Nat) : Shape := { s with held := fun k => k = n ∨ s.held k }

def drop (s : Shape) (n : Nat) : Shape := { s with held := fun k => k ≠ n ∧ s.held k }

/-- The frame `n` becomes a table. -/
def adopt (s : Shape) (n : Nat) (p : Place) : Shape :=
  { s.drop n with place := upd s.place n (some p) }

theorem adopt_same {s : Shape} {n : Nat} {p : Place} : (s.adopt n p).place n = some p := upd_same _ _ _

theorem adopt_ne {s : Shape} {n f : Nat} {p : Place} (h : f ≠ n) :
    (s.adopt n p).place f = s.place f := upd_ne _ _ h

/-- The page `q`, mapped to `n`, becomes a live block. -/
def take (s : Shape) (q n : Nat) : Shape :=
  { s.hold n with live := fun k => k = q ∨ s.live k }

end Shape

/-- **The tables form a forest** (module doc). -/
structure Forest (s : Shape) (E : Nat → Nat → Option Nat) (used : Nat → Bool) : Prop where
  level : ∀ f p, s.place f = some p → 1 ≤ p.level ∧ p.level ≤ 4
  root : ∀ f p, s.place f = some p → p.level = 4 → p = .root f
  table : ∀ f p i n, s.place f = some p → 2 ≤ p.level → i < 512 → ¬ (p.level = 4 ∧ i = 511) →
    E f i = some n → s.place n = some (p.child i)
  self : ∀ f n, s.place f = some (.root f) → E f 511 = some n → n = f
  marked : ∀ f p, s.place f = some p → used f = true
  page : ∀ f i n, s.Maps E f i n → used n = true ∧ s.place n = none ∧ ¬ s.held n
  once : ∀ f i f' i' n, s.Maps E f i n → s.Maps E f' i' n → f = f' ∧ i = i'
  held : ∀ n, s.held n → used n = true ∧ s.place n = none
  backed : s.backed → ∀ f p i n, s.place f = some p → p.level = 1 → i < 512 → E f i = some n →
    used n = true

section
variable {s : Shape} {E E' : Nat → Nat → Option Nat} {used used' : Nat → Bool}

/-- The same tables with other contents of the frames that are none. -/
theorem Shape.Maps.congr (h : ∀ f p, s.place f = some p → E' f = E f) {f i n : Nat}
    (hm : s.Maps E' f i n) : s.Maps E f i n := by
  obtain ⟨p, hp, h1, hi, hl, hn⟩ := hm
  exact ⟨p, hp, h1, hi, hl, by rwa [← h f p hp]⟩

namespace Forest

/-- More frames may be marked. -/
theorem mono (F : Forest s E used) (h : ∀ k, used k = true → used' k = true) :
    Forest s E used' :=
  ⟨F.level, F.root, F.table, F.self, fun f p hp => h f (F.marked f p hp),
    fun f i n hm => ⟨h n (F.page f i n hm).1, (F.page f i n hm).2⟩, F.once,
    fun n hn => ⟨h n (F.held n hn).1, (F.held n hn).2⟩,
    fun hb f p i n hp h1 hi hn => h n (F.backed hb f p i n hp h1 hi hn)⟩

/-- What frames hold that are no tables does not matter. -/
theorem scribble (F : Forest s E used) (h : ∀ f p, s.place f = some p → E' f = E f) :
    Forest s E' used := by
  refine ⟨F.level, F.root, fun f p i n hp h2 hi hs hn => ?_, fun f n hp hn => ?_, F.marked,
    fun f i n hm => F.page f i n (hm.congr h), fun f i f' i' n hm hm' =>
      F.once f i f' i' n (hm.congr h) (hm'.congr h), F.held, fun hb f p i n hp h1 hi hn => ?_⟩
  · exact F.table f p i n hp h2 hi hs (by rwa [← h f p hp])
  · exact F.self f n hp (by rwa [← h f _ hp])
  · exact F.backed hb f p i n hp h1 hi (by rwa [← h f p hp])

/-- A frame in hand is no table. -/
theorem held_ne (F : Forest s E used) {n f : Nat} {p : Place} (hn : s.held n)
    (hp : s.place f = some p) : n ≠ f := by
  rintro rfl
  rw [(F.held n hn).2] at hp
  cases hp

/-- **A frame taken in hand**: marked, no table and not mapped. -/
theorem hold (F : Forest s E used) {n : Nat} (hu : used n = true) (hp : s.place n = none)
    (hm : ∀ f i, ¬ s.Maps E f i n) : Forest (s.hold n) E used := by
  refine ⟨F.level, F.root, F.table, F.self, F.marked, fun f i k hk => ?_, F.once, ?_, F.backed⟩
  · obtain ⟨h1, h2, h3⟩ := F.page f i k hk
    refine ⟨h1, h2, fun h => ?_⟩
    rcases h with rfl | h
    · exact hm f i hk
    · exact h3 h
  · rintro k (rfl | hk)
    · exact ⟨hu, hp⟩
    · exact F.held k hk

/-- A frame that was not marked, marked and taken in hand. -/
theorem alloc (F : Forest s E used) {n : Nat} (hn : used n = false)
    (h : ∀ k, used' k = (decide (k = n) || used k)) : Forest (s.hold n) E used' := by
  have hmono : ∀ k, used k = true → used' k = true := fun k hk => by rw [h, hk, Bool.or_true]
  have not_used : ∀ {P : Prop}, (P → used n = true) → ¬ P := fun hP hp => by
    rw [hP hp] at hn
    cases hn
  refine (F.mono hmono).hold (by rw [h, decide_eq_true rfl, Bool.true_or]) ?_ fun f i =>
    not_used fun hm => (F.page f i n hm).1
  cases hp : s.place n with
  | none => rfl
  | some p => exact absurd hp (not_used (F.marked n p))

/-- **A frame in hand becomes a table**, as long as it leads nowhere. -/
theorem adopt (F : Forest s E used) {n : Nat} {p : Place} (hn : s.held n)
    (hE : ∀ i, i < 512 → E n i = none) (hlevel : 1 ≤ p.level ∧ p.level ≤ 4)
    (hroot : p.level = 4 → p = .root n) : Forest (s.adopt n p) E used := by
  obtain ⟨hu, hfree⟩ := F.held n hn
  have hplace : ∀ {f q}, (s.adopt n p).place f = some q → f = n ∧ q = p ∨ f ≠ n ∧ s.place f = some q := by
    intro f q hq
    by_cases hf : f = n
    · subst hf
      exact .inl ⟨rfl, Option.some.inj (hq.symm.trans Shape.adopt_same)⟩
    · exact .inr ⟨hf, by rwa [Shape.adopt_ne hf] at hq⟩
  have hkeep : ∀ {f q}, s.place f = some q → (s.adopt n p).place f = some q := by
    intro f q hq
    rw [Shape.adopt_ne fun hf => ?_]
    · exact hq
    · rw [hf, hfree] at hq
      cases hq
  have hmaps : ∀ {f i k}, (s.adopt n p).Maps E f i k → s.Maps E f i k := by
    rintro f i k ⟨q, hq, h1, hi, hl, hk⟩
    rcases hplace hq with ⟨rfl, -⟩ | ⟨-, hq⟩
    · rw [hE i hi] at hk
      cases hk
    · exact ⟨q, hq, h1, hi, hl, hk⟩
  constructor
  · intro f q hq
    rcases hplace hq with ⟨-, rfl⟩ | ⟨-, hq⟩
    · exact hlevel
    · exact F.level f q hq
  · intro f q hq h4
    rcases hplace hq with ⟨rfl, rfl⟩ | ⟨-, hq⟩
    · exact hroot h4
    · exact F.root f q hq h4
  · intro f q i k hq h2 hi hs hk
    rcases hplace hq with ⟨rfl, -⟩ | ⟨-, hq⟩
    · rw [hE i hi] at hk
      cases hk
    · exact hkeep (F.table f q i k hq h2 hi hs hk)
  · intro f k hq hk
    rcases hplace hq with ⟨rfl, -⟩ | ⟨-, hq⟩
    · rw [hE 511 (by decide)] at hk
      cases hk
    · exact F.self f k hq hk
  · intro f q hq
    rcases hplace hq with ⟨rfl, -⟩ | ⟨-, hq⟩
    · exact hu
    · exact F.marked f q hq
  · intro f i k hk
    obtain ⟨h1, h2, h3⟩ := F.page f i k (hmaps hk)
    refine ⟨h1, ?_, fun h => h3 h.2⟩
    rw [Shape.adopt_ne fun hkn : k = n => h3 (hkn ▸ hn)]
    exact h2
  · exact fun f i f' i' k hk hk' => F.once f i f' i' k (hmaps hk) (hmaps hk')
  · rintro k ⟨hne, hk⟩
    obtain ⟨h1, h2⟩ := F.held k hk
    exact ⟨h1, by rw [Shape.adopt_ne hne]; exact h2⟩
  · intro hb f q i k hq h1 hi hk
    rcases hplace hq with ⟨rfl, -⟩ | ⟨-, hq⟩
    · rw [hE i hi] at hk
      cases hk
    · exact F.backed hb f q i k hq h1 hi hk

/-- **A table is linked** in its place. -/
theorem edge (F : Forest s E used) {f i n : Nat} {p : Place} (hp : s.place f = some p)
    (h2 : 2 ≤ p.level) (hs : ¬ (p.level = 4 ∧ i = 511)) (hn : s.place n = some (p.child i))
    (hi : E' f i = some n) (hE : ∀ x j, ¬ (x = f ∧ j = i) → E' x j = E x j) :
    Forest s E' used := by
  have hne : ∀ {x j q}, s.place x = some q → q.level = 1 → ¬ (x = f ∧ j = i) := by
    rintro x j q hq h1 ⟨rfl, -⟩
    rw [hp] at hq
    cases hq
    omega
  have hmaps : ∀ {x j k}, s.Maps E' x j k → s.Maps E x j k := by
    rintro x j k ⟨q, hq, h1, hj, hl, hk⟩
    exact ⟨q, hq, h1, hj, hl, by rwa [← hE x j (hne hq h1)]⟩
  refine ⟨F.level, F.root, fun x q j k hq hq2 hj hqs hk => ?_, fun x k hq hk => ?_, F.marked,
    fun x j k hk => F.page x j k (hmaps hk),
    fun x j x' j' k hk hk' => F.once x j x' j' k (hmaps hk) (hmaps hk'), F.held,
    fun hb x q j k hq h1 hj hk => ?_⟩
  · by_cases he : x = f ∧ j = i
    · obtain ⟨rfl, rfl⟩ := he
      rw [hp] at hq
      rw [hi] at hk
      cases hq
      cases hk
      exact hn
    · exact F.table x q j k hq hq2 hj hqs (by rwa [← hE x j he])
  · refine F.self x k hq ?_
    rwa [hE x 511 fun he => ?_] at hk
    obtain ⟨rfl, rfl⟩ := he
    rw [hp] at hq
    cases hq
    exact hs ⟨rfl, rfl⟩
  · exact F.backed hb x q j k hq h1 hj (by rwa [← hE x j (hne hq h1)])

/-- The root is linked to itself. -/
theorem selfEdge (F : Forest s E used) {r : Nat} (hr : s.place r = some (.root r))
    (hi : E' r 511 = some r) (hE : ∀ x j, ¬ (x = r ∧ j = 511) → E' x j = E x j) :
    Forest s E' used := by
  have hne : ∀ {x j q}, s.place x = some q → q.level = 1 → ¬ (x = r ∧ j = 511) := by
    rintro x j q hq h1 ⟨rfl, -⟩
    rw [hr] at hq
    cases hq
    cases h1
  have hmaps : ∀ {x j k}, s.Maps E' x j k → s.Maps E x j k := by
    rintro x j k ⟨q, hq, h1, hj, hl, hk⟩
    exact ⟨q, hq, h1, hj, hl, by rwa [← hE x j (hne hq h1)]⟩
  refine ⟨F.level, F.root, fun x q j k hq hq2 hj hqs hk => ?_, fun x k hq hk => ?_, F.marked,
    fun x j k hk => F.page x j k (hmaps hk),
    fun x j x' j' k hk hk' => F.once x j x' j' k (hmaps hk) (hmaps hk'), F.held,
    fun hb x q j k hq h1 hj hk => ?_⟩
  · refine F.table x q j k hq hq2 hj hqs ?_
    rwa [hE x j fun he => ?_] at hk
    obtain ⟨rfl, rfl⟩ := he
    rw [hr] at hq
    cases hq
    exact hqs ⟨rfl, rfl⟩
  · by_cases he : x = r
    · subst he
      rw [hi] at hk
      exact (Option.some.inj hk).symm
    · exact F.self x k hq (by rwa [← hE x 511 fun h => he h.1])
  · exact F.backed hb x q j k hq h1 hj (by rwa [← hE x j (hne hq h1)])

/-- **A frame in hand is mapped.** -/
theorem map (F : Forest s E used) {f i n : Nat} {p : Place} (hp : s.place f = some p)
    (h1 : p.level = 1) (hn : s.held n) (hi : E' f i = some n)
    (hE : ∀ x j, ¬ (x = f ∧ j = i) → E' x j = E x j) : Forest (s.drop n) E' used := by
  obtain ⟨hu, hfree⟩ := F.held n hn
  have hmaps : ∀ {x j k}, (s.drop n).Maps E' x j k → (x = f ∧ j = i) ∧ k = n ∨ s.Maps E x j k := by
    rintro x j k ⟨q, hq, hq1, hj, hl, hk⟩
    by_cases he : x = f ∧ j = i
    · obtain ⟨rfl, rfl⟩ := he
      rw [hi] at hk
      exact .inl ⟨⟨rfl, rfl⟩, (Option.some.inj hk).symm⟩
    · exact .inr ⟨q, hq, hq1, hj, hl, by rwa [← hE x j he]⟩
  have hother : ∀ {x j q}, s.place x = some q → 2 ≤ q.level → E' x j = E x j := by
    intro x j q hq h2
    refine hE x j fun he => ?_
    obtain ⟨rfl, -⟩ := he
    rw [hp] at hq
    cases hq
    omega
  refine ⟨F.level, F.root, fun x q j k hq hq2 hj hqs hk => ?_, fun x k hq hk => ?_, F.marked,
    fun x j k hk => ?_, fun x j x' j' k hk hk' => ?_, fun k hk => F.held k hk.2,
    fun hb x q j k hq hq1 hj hk => ?_⟩
  · exact F.table x q j k hq hq2 hj hqs (by rwa [← hother hq hq2])
  · exact F.self x k hq (by rwa [← hother hq (show 2 ≤ 4 by decide)])
  · rcases hmaps hk with ⟨-, rfl⟩ | hk
    · exact ⟨hu, hfree, fun h => h.1 rfl⟩
    · obtain ⟨h1, h2, h3⟩ := F.page x j k hk
      exact ⟨h1, h2, fun h => h3 h.2⟩
  · rcases hmaps hk with ⟨⟨rfl, rfl⟩, rfl⟩ | hk <;> rcases hmaps hk' with ⟨⟨rfl, rfl⟩, he⟩ | hk'
    · exact ⟨rfl, rfl⟩
    · exact absurd hn (F.page _ _ _ hk').2.2
    · exact absurd (he ▸ hn) (F.page _ _ _ hk).2.2
    · exact F.once x j x' j' k hk hk'
  · by_cases he : x = f ∧ j = i
    · obtain ⟨rfl, rfl⟩ := he
      rw [hi] at hk
      cases hk
      exact hu
    · exact F.backed hb x q j k hq hq1 hj (by rwa [← hE x j he])

/-- **A page is unmapped and its frame freed.** Where live pages must keep their frames, none of
them may be mapped to it. -/
theorem unmap (F : Forest s E used) {f i n : Nat} (hm : s.Maps E f i n)
    (hlive : s.backed → ∀ x q j, s.place x = some q → q.level = 1 → j < 512 → s.live (q.sub j) →
      E x j ≠ some n)
    (hi : E' f i = none) (hE : ∀ x j, ¬ (x = f ∧ j = i) → E' x j = E x j)
    (hu : ∀ k, k ≠ n → used k = true → used' k = true) : Forest s E' used' := by
  obtain ⟨p, hp, h1, -, -, -⟩ := id hm
  obtain ⟨hun, hfree, hheld⟩ := F.page f i n hm
  have hmaps : ∀ {x j k}, s.Maps E' x j k → k ≠ n ∧ s.Maps E x j k := by
    rintro x j k ⟨q, hq, hq1, hj, hl, hk⟩
    have hne : ¬ (x = f ∧ j = i) := by
      rintro ⟨rfl, rfl⟩
      rw [hi] at hk
      cases hk
    have hk' : s.Maps E x j k := ⟨q, hq, hq1, hj, hl, by rwa [← hE x j hne]⟩
    refine ⟨fun he => hne ?_, hk'⟩
    subst he
    exact F.once x j f i k hk' hm
  have hother : ∀ {x j q}, s.place x = some q → 2 ≤ q.level → E' x j = E x j := by
    intro x j q hq h2
    refine hE x j fun he => ?_
    obtain ⟨rfl, -⟩ := he
    rw [hp] at hq
    cases hq
    omega
  refine ⟨F.level, F.root, fun x q j k hq hq2 hj hqs hk => ?_, fun x k hq hk => ?_,
    fun x q hq => ?_, fun x j k hk => ?_,
    fun x j x' j' k hk hk' => F.once x j x' j' k (hmaps hk).2 (hmaps hk').2, fun k hk => ?_,
    fun hb x q j k hq hq1 hj hk => ?_⟩
  · exact F.table x q j k hq hq2 hj hqs (by rwa [← hother hq hq2])
  · exact F.self x k hq (by rwa [← hother hq (show 2 ≤ 4 by decide)])
  · refine hu x (fun he => ?_) (F.marked x q hq)
    rw [he, hfree] at hq
    cases hq
  · obtain ⟨hne, hk⟩ := hmaps hk
    exact ⟨hu k hne (F.page x j k hk).1, (F.page x j k hk).2⟩
  · exact ⟨hu k (fun he => hheld (he ▸ hk)) (F.held k hk).1, (F.held k hk).2⟩
  · by_cases hl : s.live (q.sub j)
    · have hne : ¬ (x = f ∧ j = i) := by
        rintro ⟨rfl, rfl⟩
        rw [hi] at hk
        cases hk
      rw [hE x j hne] at hk
      exact hu k (fun he => hlive hb x q j hq hq1 hj hl (he ▸ hk)) (F.backed hb x q j k hq hq1 hj hk)
    · obtain ⟨hne, hk⟩ := hmaps ⟨q, hq, hq1, hj, hl, hk⟩
      exact hu k hne (F.page x j k hk).1

/-- **A heap page becomes a live block**: its frame is in hand. -/
theorem take (F : Forest s E used) {f i n : Nat} {p : Place} (hp : s.place f = some p)
    (hm : s.Maps E f i n) : Forest (s.take (p.sub i) n) E used := by
  obtain ⟨hu, hfree, -⟩ := F.page f i n hm
  have hmaps : ∀ {x j k}, (s.take (p.sub i) n).Maps E x j k → ¬ (x = f ∧ j = i) ∧ s.Maps E x j k := by
    rintro x j k ⟨q, hq, hq1, hj, hl, hk⟩
    refine ⟨fun he => hl (.inl ?_), ⟨q, hq, hq1, hj, fun h => hl (.inr h), hk⟩⟩
    obtain ⟨rfl, rfl⟩ := he
    have : s.place x = some q := hq
    rw [hp] at this
    cases this
    rfl
  refine ⟨F.level, F.root, F.table, F.self, F.marked, fun x j k hk => ?_,
    fun x j x' j' k hk hk' => F.once x j x' j' k (hmaps hk).2 (hmaps hk').2, ?_, F.backed⟩
  · obtain ⟨hne, hk'⟩ := hmaps hk
    obtain ⟨h1, h2, h3⟩ := F.page x j k hk'
    refine ⟨h1, h2, fun h => ?_⟩
    rcases h with rfl | h
    · exact hne (F.once _ _ _ _ _ hk' hm)
    · exact h3 h
  · rintro k (rfl | hk)
    · exact ⟨hu, hfree⟩
    · exact F.held k hk

end Forest

/-! ## What a step leaves alone -/

/-- Tables stay in their places. -/
structure Shape.Le (s s' : Shape) : Prop where
  place : ∀ f p, s.place f = some p → s'.place f = some p
  backed : s'.backed = s.backed

/-- The edges between tables are kept, and the mappings of the pages outside `T`. -/
def Keeps (s : Shape) (T : Nat → Prop) (E E' : Nat → Nat → Option Nat) : Prop :=
  ∀ f p i n, s.place f = some p → 2 ≤ p.level ∨ p.level = 1 ∧ ¬ T (p.sub i) → E f i = some n →
    E' f i = some n

namespace Shape.Le

theorem refl (s : Shape) : s.Le s := ⟨fun _ _ h => h, rfl⟩

theorem trans {s s' s'' : Shape} (h : s.Le s') (h' : s'.Le s'') : s.Le s'' :=
  ⟨fun f p hp => h'.place f p (h.place f p hp), h'.backed.trans h.backed⟩

theorem hold (s : Shape) (n : Nat) : s.Le (s.hold n) := ⟨fun _ _ h => h, rfl⟩

theorem adopt {n : Nat} {p : Place} (h : s.place n = none) : s.Le (s.adopt n p) := by
  refine ⟨fun f q hq => ?_, rfl⟩
  rw [Shape.adopt_ne fun hf => ?_]
  · exact hq
  · rw [hf, h] at hq
    cases hq

end Shape.Le

namespace Keeps

variable {T T' : Nat → Prop} {E'' : Nat → Nat → Option Nat} {s' : Shape}

theorem refl (s : Shape) (T : Nat → Prop) (E : Nat → Nat → Option Nat) : Keeps s T E E :=
  fun _ _ _ _ _ _ h => h

theorem trans (h : Keeps s T E E') (hs : s.Le s') (h' : Keeps s' T E' E'') : Keeps s T E E'' :=
  fun f p i n hp hl hn => h' f p i n (hs.place f p hp) hl (h f p i n hp hl hn)

theorem mono (h : Keeps s T E E') (hT : ∀ q, T q → T' q) : Keeps s T' E E' :=
  fun f p i n hp hl => h f p i n hp (hl.imp id fun h => ⟨h.1, fun ht => h.2 (hT _ ht)⟩)

/-- Only the entry of a page in `T` changes. -/
theorem page {f i : Nat} {p : Place} (hp : s.place f = some p) (h1 : p.level = 1)
    (hT : T (p.sub i)) (hE : ∀ x j, ¬ (x = f ∧ j = i) → E' x j = E x j) : Keeps s T E E' := by
  intro x q j n hq hl hn
  rw [hE x j fun he => ?_]
  · exact hn
  · obtain ⟨rfl, rfl⟩ := he
    rw [hp] at hq
    cases hq
    rcases hl with hl | hl
    · omega
    · exact hl.2 hT

end Keeps

/-! ## Links -/

/-- Every table below the roots is linked in its place. -/
def Linked (s : Shape) (E : Nat → Nat → Option Nat) : Prop :=
  ∀ f p, s.place f = some p → p.level < 4 → ∃ g q j, s.place g = some q ∧ 2 ≤ q.level ∧ j < 512 ∧
    ¬ (q.level = 4 ∧ j = 511) ∧ p = q.child j ∧ E g j = some f

theorem Linked.keep {T : Nat → Prop} {s' : Shape} (h : Linked s E) (hle : s.Le s')
    (hk : Keeps s T E E')
    (hnew : ∀ f p, s'.place f = some p → s.place f = none → p.level < 4 → ∃ g q j,
      s'.place g = some q ∧ 2 ≤ q.level ∧ j < 512 ∧ ¬ (q.level = 4 ∧ j = 511) ∧ p = q.child j ∧
        E' g j = some f) : Linked s' E' := by
  intro f p hp hlevel
  cases hold : s.place f with
  | none => exact hnew f p hp hold hlevel
  | some p' =>
    obtain rfl : p' = p := by
      have := hle.place f p' hold
      rw [hp] at this
      exact (Option.some.inj this).symm
    obtain ⟨g, q, j, hg, h2, hj, hs, hpq, hn⟩ := h f p' hold hlevel
    exact ⟨g, q, j, hle.place g q hg, h2, hj, hs, hpq, hk g q j f hg (.inl h2) hn⟩

/-! ## Walks -/

namespace Place

theorem along_level (p : Place) (is : List Nat) : (p.along is).level = p.level - is.length := by
  induction is generalizing p with
  | nil => rfl
  | cons i is ih =>
    rw [along, List.foldl_cons, ← along, ih, List.length_cons]
    show p.level - 1 - is.length = _
    omega

/-- The tables of one space and those that all share. -/
theorem along_owner (p : Place) (is : List Nat) :
    (p.along is).owner = p.owner ∨ (p.along is).owner = none := by
  induction is generalizing p with
  | nil => exact .inl rfl
  | cons i is ih =>
    rw [along, List.foldl_cons, ← along]
    refine (ih (p.child i)).elim (fun h => ?_) .inr
    rw [h]
    unfold child
    dsimp only
    split
    · exact .inr rfl
    · exact .inl rfl

theorem along_snoc (p : Place) (is : List Nat) (i : Nat) :
    p.along (is ++ [i]) = (p.along is).child i := by
  rw [along, List.foldl_append]
  rfl

end Place

/-- **A walk of tables** ends at a table in the right place, and what is kept keeps the walk. -/
theorem Forest.walk_place (F : Forest s E used) {f g : Nat} {p : Place} {is : List Nat}
    (hp : s.place f = some p) (hlen : is.length < p.level) (hlt : ∀ i ∈ is, i < 512)
    (hhead : p.level = 4 → is.head? ≠ some 511) (hw : walk E f is = some g) :
    s.place g = some (p.along is) ∧ ∀ E' T, Keeps s T E E' → walk E' f is = some g := by
  induction is generalizing f p with
  | nil =>
    cases hw
    exact ⟨hp, fun _ _ _ => rfl⟩
  | cons i is ih =>
    obtain ⟨n, hn, hw⟩ := Option.bind_eq_some_iff.1 hw
    rw [List.length_cons] at hlen
    have h2 : 2 ≤ p.level := by omega
    have hchild := F.table f p i n hp h2 (hlt i List.mem_cons_self)
      (fun h => hhead h.1 (by rw [h.2]; rfl)) hn
    have hl := (F.level f p hp).2
    obtain ⟨hg, hkeep⟩ := ih hchild (by show is.length < p.level - 1; omega)
      (fun j hj => hlt j (List.mem_cons_of_mem _ hj)) (fun h4 => by
        have h4 : p.level - 1 = 4 := h4
        omega) hw
    exact ⟨hg, fun E' T hk => (walk_cons (hk f p i n hp (.inl h2) hn)).trans (hkeep E' T hk)⟩

/-- **A walk of tables** ends at a table, also through the window. -/
theorem Forest.walk_table (F : Forest s E used) {f g : Nat} {p : Place} {is : List Nat}
    (hp : s.place f = some p) (hlen : is.length < p.level) (hlt : ∀ i ∈ is, i < 512)
    (hw : walk E f is = some g) : ∃ q, s.place g = some q := by
  induction is generalizing f p with
  | nil =>
    cases hw
    exact ⟨p, hp⟩
  | cons i is ih =>
    obtain ⟨n, hn, hrest⟩ := Option.bind_eq_some_iff.1 hw
    have htail : ∀ j ∈ is, j < 512 := fun j hj => hlt j (List.mem_cons_of_mem _ hj)
    rw [List.length_cons] at hlen
    by_cases hself : p.level = 4 ∧ i = 511
    · obtain ⟨h4, rfl⟩ := hself
      rw [F.root f p hp h4] at hp
      obtain rfl := F.self f n hp hn
      exact ih hp (by show is.length < 4; omega) htail hrest
    · have hchild := F.table f p i n hp (by omega) (hlt i List.mem_cons_self) hself hn
      exact ih hchild (by show is.length < p.level - 1; omega) htail hrest

/-- **Every table is on a walk from a root.** -/
theorem Linked.walk_root (h : Linked s E) (F : Forest s E used) {t : Nat} {p : Place}
    (hp : s.place t = some p) :
    ∃ r js, s.place r = some (.root r) ∧ walk E r js = some t ∧ p = (Place.root r).along js ∧
      (∀ i ∈ js, i < 512) ∧ js.head? ≠ some 511 := by
  obtain ⟨h1, h4⟩ := F.level t p hp
  -- by induction on the number of levels above
  induction hn : 4 - p.level generalizing t p with
  | zero =>
    have hroot := F.root t p hp (by omega)
    subst hroot
    exact ⟨t, [], hp, rfl, rfl, by simp, by simp⟩
  | succ n ih =>
    obtain ⟨g, q, j, hg, h2, hj, hs, rfl, hedge⟩ := h t p hp (by omega)
    have hlevel : (q.child j).level = q.level - 1 := rfl
    have hq := F.level g q hg
    obtain ⟨r, js, hr, hw, hpath, hlt, hhead⟩ := ih hg hq.1 hq.2 (by omega)
    refine ⟨r, js ++ [j], hr, ?_, ?_, fun i hi => ?_, fun hh => ?_⟩
    · rw [walk_snoc, hw, Option.bind_some, hedge]
    · rw [Place.along_snoc, ← hpath]
    · rcases List.mem_append.1 hi with hi | hi
      · exact hlt i hi
      · exact List.mem_singleton.1 hi ▸ hj
    · cases js with
      | nil =>
        refine hs ⟨by rw [hpath]; rfl, by simpa using hh⟩
      | cons x js => exact hhead hh

end

end Paging
