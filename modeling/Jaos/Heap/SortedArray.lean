import Mathlib.Data.List.Sort
import Mathlib.Data.Multiset.AddSub
import Jaos.Heap.OrderedArray

/-!
# The ordered array as a sorted list

`insert_ordered_array` is Mathlib's `List.orderedInsert` on the slots in use (`toList_orderedInsert`), for
the order "`y` is not less than `x`" that a strict weak order `less_than` gives, so elements with the
same key stay in the order in which they were. `Built` are the arrays that insertions and removals make
from an empty one, with the items that went in and out; `ordered_array_sorted` puts the parts together.
-/

namespace OrderedArray

open Lib

variable {α : Type}

/-! ## The order -/

/-- `less_than(x, y)`. -/
abbrev Less (lessThan : α → α → Bool) (x y : α) : Prop := lessThan x y = true

/-- `y` may stand behind `x`. -/
def NotAfter (lessThan : α → α → Bool) (x y : α) : Prop := lessThan y x = false

instance (lessThan : α → α → Bool) : DecidableRel (NotAfter lessThan) :=
  fun x y => inferInstanceAs (Decidable (lessThan y x = false))

/-- The slots in use are sorted by `less_than`. -/
def IsSorted (lessThan : α → α → Bool) (a : OrderedArray α) : Prop := a.toList.Pairwise (NotAfter lessThan)

section
variable {lessThan : α → α → Bool} {a : OrderedArray α} {item : α}

instance [IsStrictWeakOrder α (Less lessThan)] : Std.Total (NotAfter lessThan) where
  total x y := by
    by_cases hyx : lessThan y x = true
    · have hxy : ¬ lessThan x y = true := fun h =>
        irrefl_of (Less lessThan) x (trans_of (Less lessThan) h hyx)
      exact .inr (by simpa [NotAfter] using hxy)
    · exact .inl (by simpa [NotAfter] using hyx)

instance [IsStrictWeakOrder α (Less lessThan)] : IsTrans α (NotAfter lessThan) where
  trans x y z hxy hyz := by
    apply Bool.eq_false_iff.2
    intro hzx
    -- `y` is comparable neither with `x` nor with `z`
    have hnxy : ¬ lessThan x y = true := fun h => by
      have hzy : lessThan z y = true := trans_of (Less lessThan) hzx h
      simp [NotAfter, hzy] at hyz
    have hnyz : ¬ lessThan y z = true := fun h => by
      have hyx : lessThan y x = true := trans_of (Less lessThan) h hzx
      simp [NotAfter, hyx] at hxy
    have hinc := @IsStrictWeakOrder.incomp_trans _ (Less lessThan) _ x y z
      ⟨hnxy, by simpa [NotAfter] using hxy⟩ ⟨hnyz, by simpa [NotAfter] using hyz⟩
    exact hinc.2 hzx

/-! ## One call -/

/-- The loop looks for the first element not less than the item. -/
theorem insertPos_eq_findIdx :
    insertPos lessThan item a = a.toList.findIdx fun x => !lessThan x item := by
  have hle := insertPos_le lessThan item a
  have hbefore : ∀ j < insertPos lessThan item a, lessThan (a.array j) item = true := by
    intro j hj
    exact scan_before (fun i => lessThan (a.array i) item) (Nat.zero_le j) hj
  rcases Nat.eq_or_lt_of_le hle with heq | hlt
  · have hall : ∀ x ∈ a.toList, (!lessThan x item) = false := by
      intro x hx
      obtain ⟨j, hj, rfl⟩ := mem_toList.1 hx
      simp [hbefore j (by omega)]
    rw [heq, List.findIdx_eq_length.2 hall, length_toList]
  · have hstop : lessThan (a.array (insertPos lessThan item a)) item = false :=
      scan_stop (fun i => lessThan (a.array i) item) (by unfold insertPos at hlt; omega)
    symm
    rw [List.findIdx_eq (by simpa using hlt)]
    refine ⟨by simp [hstop], ?_⟩
    intro j hj
    simp [hbefore j hj]

/-- **Insertion** before the first element not less than the item. -/
theorem toList_insert_while (h : a.size + 1 < 2 ^ 64) :
    (insertOrderedArray lessThan item a).toList =
      a.toList.takeWhile (fun x => lessThan x item) ++
        item :: a.toList.dropWhile fun x => lessThan x item := by
  rw [toList_insert lessThan item h, insertPos_eq_findIdx, List.takeWhile_eq_take_findIdx_not,
    List.dropWhile_eq_drop_findIdx_not]

theorem toList_orderedInsert (h : a.size + 1 < 2 ^ 64) :
    (insertOrderedArray lessThan item a).toList = a.toList.orderedInsert (NotAfter lessThan) item := by
  rw [toList_insert_while h, List.orderedInsert_eq_take_drop]
  simp [NotAfter]

theorem IsSorted.insert [IsStrictWeakOrder α (Less lessThan)] (hs : IsSorted lessThan a)
    (h : a.size + 1 < 2 ^ 64) : IsSorted lessThan (insertOrderedArray lessThan item a) := by
  unfold IsSorted
  rw [toList_orderedInsert h]
  exact List.Pairwise.orderedInsert item _ hs

theorem IsSorted.remove {i : Nat} (hs : IsSorted lessThan a) (hi : i < a.size) (h : a.size < 2 ^ 64) :
    IsSorted lessThan (removeOrderedArray i a) := by
  unfold IsSorted
  rw [toList_remove hi h]
  exact hs.sublist (List.eraseIdx_sublist _ _)

end

/-! ## Sequences of calls -/

/-- The arrays that insertions with room and removals in range make from an empty one, with the items
that were inserted and those that were removed, the last ones first. -/
inductive Built [Zero α] (lessThan : α → α → Bool) (addr : Nat → α) (maxSize : Nat) :
    (inserted removed : List α) → OrderedArray α → Prop
  | place : Built lessThan addr maxSize [] [] (placeOrderedArray addr maxSize)
  | insert {inserted removed : List α} {a : OrderedArray α} (item : α) :
    Built lessThan addr maxSize inserted removed a → a.size < a.maxSize →
    Built lessThan addr maxSize (item :: inserted) removed (insertOrderedArray lessThan item a)
  | remove {inserted removed : List α} {a : OrderedArray α} (i : Nat) :
    Built lessThan addr maxSize inserted removed a → i < a.size →
    Built lessThan addr maxSize inserted (lookupOrderedArray i a :: removed) (removeOrderedArray i a)

section
variable [Zero α] {lessThan : α → α → Bool} {addr : Nat → α} {maxSize : Nat} {inserted removed : List α}
  {a : OrderedArray α}

/-- The array never holds more than `max_size` items. -/
theorem Built.size_le (h : Built lessThan addr maxSize inserted removed a) (hmax : maxSize < 2 ^ 64) :
    a.maxSize = maxSize ∧ a.size ≤ maxSize := by
  induction h with
  | place => exact ⟨rfl, Nat.zero_le _⟩
  | insert item _ hroom ih =>
    obtain ⟨hm, -⟩ := ih
    rw [hm] at hroom
    rw [maxSize_insert, size_insert, add64_of_lt (by omega)]
    exact ⟨hm, hroom⟩
  | @remove inserted removed a i _ hi ih =>
    obtain ⟨hm, hle⟩ := ih
    have hsize : (removeOrderedArray i a).size = a.size - 1 := sub64_of_le (by omega) (by omega)
    rw [maxSize_remove, hsize]
    exact ⟨hm, by omega⟩

theorem Built.sorted [IsStrictWeakOrder α (Less lessThan)]
    (h : Built lessThan addr maxSize inserted removed a) (hmax : maxSize < 2 ^ 64) :
    IsSorted lessThan a := by
  induction h with
  | place => exact List.Pairwise.nil
  | insert item hb hroom ih =>
    obtain ⟨hm, hle⟩ := hb.size_le hmax
    exact ih.insert (by omega)
  | remove i hb hi ih =>
    obtain ⟨-, hle⟩ := hb.size_le hmax
    exact ih.remove hi (by omega)

/-- What went in is what came out and what is there. -/
theorem Built.perm (h : Built lessThan addr maxSize inserted removed a) (hmax : maxSize < 2 ^ 64) :
    inserted.Perm (removed ++ a.toList) := by
  induction h with
  | place => exact List.Perm.nil
  | @insert inserted removed a item hb hroom ih =>
    obtain ⟨hm, hle⟩ := hb.size_le hmax
    have hcons : (item :: inserted).Perm (removed ++ item :: a.toList) :=
      (ih.cons item).trans List.perm_middle.symm
    exact hcons.trans ((perm_insert lessThan item (by omega)).symm.append_left removed)
  | @remove inserted removed a i hb hi ih =>
    obtain ⟨-, hle⟩ := hb.size_le hmax
    rw [lookup_eq hi]
    have hmiddle := (perm_remove hi (by omega)).append_left removed
    exact (ih.trans hmiddle).trans List.perm_middle

/-- **The ordered array is a sorted list.** For every strict weak order: an insertion with room puts the
item before the first element not less than it and keeps the order; a removal takes out the one element;
and whatever insertions and removals come after `place_ordered_array`, the array is sorted and holds what
was inserted less what was removed. -/
theorem ordered_array_sorted [IsStrictWeakOrder α (Less lessThan)] :
    (∀ (a : OrderedArray α) (item : α), a.maxSize < 2 ^ 64 → a.size < a.maxSize → IsSorted lessThan a →
      IsSorted lessThan (insertOrderedArray lessThan item a) ∧
      (insertOrderedArray lessThan item a).toList =
        a.toList.takeWhile (fun x => lessThan x item) ++
          item :: a.toList.dropWhile (fun x => lessThan x item) ∧
      (insertOrderedArray lessThan item a).size = a.size + 1) ∧
    (∀ (a : OrderedArray α) (i : Nat), a.maxSize < 2 ^ 64 → i < a.size → a.size < a.maxSize →
      (removeOrderedArray i a).toList = a.toList.eraseIdx i) ∧
    (∀ (addr : Nat → α) (maxSize : Nat) (inserted removed : List α) (a : OrderedArray α),
      maxSize < 2 ^ 64 → Built lessThan addr maxSize inserted removed a →
      IsSorted lessThan a ∧ (inserted : Multiset α) = removed + a.toList) := by
  refine ⟨?_, ?_, ?_⟩
  · intro a item hmax hroom hsorted
    refine ⟨hsorted.insert (by omega), toList_insert_while (by omega), ?_⟩
    rw [size_insert, add64_of_lt (by omega)]
  · intro a i hmax hi hroom
    exact toList_remove hi (by omega)
  · intro addr maxSize inserted removed a hmax hbuilt
    refine ⟨hbuilt.sorted hmax, ?_⟩
    rw [Multiset.coe_add]
    exact Multiset.coe_eq_coe.2 (hbuilt.perm hmax)

/-- Numbers by their size: 3 and 5 go in, and 3 out again. -/
theorem ordered_array_sorted_nat :
    let lt := fun x y : Nat => decide (x < y)
    let a := insertOrderedArray lt 3 (insertOrderedArray lt 5 (placeOrderedArray (fun _ => 9) 4))
    IsSorted lt (insertOrderedArray lt 4 a) ∧ (removeOrderedArray 0 a).toList = [5] ∧
      IsSorted lt (removeOrderedArray 0 a) := by
  intro lt a
  have hlt : IsStrictWeakOrder Nat (Less lt) :=
    { irrefl := by simp [Less, lt], trans := by simp only [Less, lt]; grind
      incomp_trans := by simp only [Less, lt]; grind }
  obtain ⟨hinsert, hremove, hrun⟩ := @ordered_array_sorted Nat _ lt hlt
  have hbuilt : Built lt (fun _ => 9) 4 [3, 5] [] a := (Built.place.insert 5 (by decide)).insert 3 (by decide)
  have hsorted := hrun (fun _ => 9) 4 [3, 5] [] a (by decide) hbuilt
  have hout := hrun (fun _ => 9) 4 [3, 5] [3] _ (by decide) (hbuilt.remove 0 (by decide))
  exact ⟨(hinsert a 4 (by decide) (by decide) hsorted.1).1, hremove a 0 (by decide) (by decide) (by decide),
    hout.1⟩

end

end OrderedArray
