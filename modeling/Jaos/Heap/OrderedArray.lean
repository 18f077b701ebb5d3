import Jaos.Lib.Word
import Jaos.Lib.Scan

/-!
# The ordered array (`kernel/ordered_array.c`)

An array of slots kept in the order of a comparison `less_than`, which the heap uses as its index
of holes. The slots are a function of the slot number: the C code checks no bound, so a slot at or
past `max_size` is whatever memory holds there. The comparison is an argument of the insertion (in
C a field), since the heap's comparison reads the heap's memory.

`toList` is the abstract value, the slots in use. `toList_insert` and `toList_remove` give the two
updates on it.
-/

open Lib

/-- `ordered_array_t`. -/
structure OrderedArray (α : Type) where
  array : Nat → α
  size : Nat
  maxSize : Nat

namespace OrderedArray

variable {α : Type}

/-- `array[i] = v`. -/
def setSlot (f : Nat → α) (i : Nat) (v : α) : Nat → α := fun j => if j = i then v else f j

/-- `place_ordered_array`: the slots at `addr` are cleared, none is in use. -/
def placeOrderedArray [Zero α] (addr : Nat → α) (maxSize : Nat) : OrderedArray α where
  array := fun i => if i < maxSize then 0 else addr i
  size := 0
  maxSize := maxSize

/-- The first loop of `insert_ordered_array`: the place of the item. -/
def insertPos (lessThan : α → α → Bool) (item : α) (a : OrderedArray α) : Nat :=
  scan (fun i => lessThan (a.array i) item) a.size 0

/-- The loop of `insert_ordered_array` that moves the slots from `i` on up by one, `k` times
round. -/
def shiftUp : (k i : Nat) → (tmp : α) → (Nat → α) → Nat → α
  | 0, _, _, f => f
  | k + 1, i, tmp, f => shiftUp k (i + 1) (f (i + 1)) (setSlot f (i + 1) tmp)

/-- `insert_ordered_array`. -/
def insertOrderedArray (lessThan : α → α → Bool) (item : α) (a : OrderedArray α) :
    OrderedArray α :=
  let i := insertPos lessThan item a
  if i = a.size then
    { a with array := setSlot a.array a.size item, size := add64 a.size 1 }
  else
    { a with
      array := shiftUp (a.size - i) i (a.array i) (setSlot a.array i item)
      size := add64 a.size 1 }

/-- `lookup_ordered_array`. -/
def lookupOrderedArray [Zero α] (i : Nat) (a : OrderedArray α) : α :=
  if i < a.size then a.array i else 0

/-- The loop of `remove_ordered_array`, `k` times round. -/
def shiftDown : (k i : Nat) → (Nat → α) → Nat → α
  | 0, _, f => f
  | k + 1, i, f => shiftDown k (i + 1) (setSlot f i (f (i + 1)))

/-- `remove_ordered_array`. -/
def removeOrderedArray (i : Nat) (a : OrderedArray α) : OrderedArray α :=
  { a with array := shiftDown (a.size - i) i a.array, size := sub64 a.size 1 }

/-- The slots in use. -/
def toList (a : OrderedArray α) : List α := (List.range a.size).map a.array

/-! ## The loops -/

theorem shiftUp_apply (k i : Nat) (tmp : α) (f : Nat → α) (j : Nat) :
    shiftUp k i tmp f j =
      if i < j ∧ j ≤ i + k then (if j = i + 1 then tmp else f (j - 1)) else f j := by
  induction k generalizing i tmp f with
  | zero => rw [shiftUp, if_neg (by omega)]
  | succ k ih =>
    rw [shiftUp, ih]
    unfold setSlot
    grind

theorem shiftDown_apply (k i : Nat) (f : Nat → α) (j : Nat) :
    shiftDown k i f j = if i ≤ j ∧ j < i + k then f (j + 1) else f j := by
  induction k generalizing i f with
  | zero => rw [shiftDown, if_neg (by omega)]
  | succ k ih =>
    rw [shiftDown, ih]
    unfold setSlot
    grind

/-! ## The slots in use -/

@[simp] theorem length_toList (a : OrderedArray α) : a.toList.length = a.size := by simp [toList]

@[simp] theorem getElem_toList (a : OrderedArray α) (i : Nat) (h : i < a.toList.length) :
    a.toList[i] = a.array i := by simp [toList]

theorem lookup_eq [Zero α] {a : OrderedArray α} {i : Nat} (h : i < a.size) :
    lookupOrderedArray i a = a.array i := if_pos h

theorem array_mem {a : OrderedArray α} {i : Nat} (h : i < a.size) : a.array i ∈ a.toList :=
  List.mem_map.2 ⟨i, List.mem_range.2 h, rfl⟩

theorem mem_toList {a : OrderedArray α} {x : α} : x ∈ a.toList ↔ ∃ i < a.size, a.array i = x := by
  simp [toList]

theorem insertPos_le (lt : α → α → Bool) (item : α) (a : OrderedArray α) :
    insertPos lt item a ≤ a.size := by
  have := scan_le (fun i => lt (a.array i) item) a.size 0
  unfold insertPos
  omega

@[simp] theorem maxSize_insert (lt : α → α → Bool) (item : α) (a : OrderedArray α) :
    (insertOrderedArray lt item a).maxSize = a.maxSize := by
  unfold insertOrderedArray
  dsimp only
  split <;> rfl

@[simp] theorem maxSize_remove (i : Nat) (a : OrderedArray α) :
    (removeOrderedArray i a).maxSize = a.maxSize := rfl

theorem size_insert (lt : α → α → Bool) (item : α) (a : OrderedArray α) :
    (insertOrderedArray lt item a).size = add64 a.size 1 := by
  unfold insertOrderedArray
  dsimp only
  split <;> rfl

/-- **Insertion**: the item stands before the first element not less than it. -/
theorem toList_insert (lt : α → α → Bool) (item : α) {a : OrderedArray α}
    (h : a.size + 1 < 2 ^ 64) :
    (insertOrderedArray lt item a).toList =
      a.toList.take (insertPos lt item a) ++ item :: a.toList.drop (insertPos lt item a) := by
  have hle := insertPos_le lt item a
  apply List.ext_getElem
  · simp only [length_toList, size_insert, add64_of_lt h, List.length_append, List.length_take,
      List.length_cons, List.length_drop]
    omega
  intro j h1 h2
  rw [length_toList, size_insert, add64_of_lt h] at h1
  rw [getElem_toList, List.getElem_append]
  unfold insertOrderedArray
  dsimp only
  split
  · unfold setSlot
    grind [length_toList, getElem_toList]
  · dsimp only
    rw [shiftUp_apply]
    unfold setSlot
    grind [length_toList, getElem_toList]

/-- **Removal** of a slot in use. -/
theorem toList_remove {a : OrderedArray α} {i : Nat} (hi : i < a.size) (h : a.size < 2 ^ 64) :
    (removeOrderedArray i a).toList = a.toList.eraseIdx i := by
  apply List.ext_getElem
  · rw [List.length_eraseIdx_of_lt (by simpa using hi), length_toList, length_toList]
    exact sub64_of_le (by omega) h
  intro j h1 h2
  have hs : (removeOrderedArray i a).size = a.size - 1 := sub64_of_le (by omega) h
  rw [length_toList, hs] at h1
  rw [getElem_toList, List.getElem_eraseIdx]
  unfold removeOrderedArray
  dsimp only
  rw [shiftDown_apply]
  split <;> split <;> first | omega | simp

/-- **Removal behind the last slot** drops the last one. -/
theorem toList_remove_end {a : OrderedArray α} (hpos : 0 < a.size) (h : a.size < 2 ^ 64) :
    (removeOrderedArray a.size a).toList = a.toList.dropLast := by
  have hs : (removeOrderedArray a.size a).size = a.size - 1 := sub64_of_le hpos h
  apply List.ext_getElem
  · rw [List.length_dropLast, length_toList, length_toList, hs]
  intro j h1 h2
  rw [length_toList, hs] at h1
  rw [getElem_toList, List.getElem_dropLast, getElem_toList]
  unfold removeOrderedArray
  dsimp only
  rw [shiftDown_apply, if_neg (by omega)]

/-- Whatever the place, a removal that leaves a sensible size leaves old elements. -/
theorem remove_sub {a : OrderedArray α} {i : Nat} (hs : a.size < 2 ^ 64)
    (h : (removeOrderedArray i a).size < 2 ^ 63) :
    (removeOrderedArray i a).size + 1 = a.size ∧
      ∀ x ∈ (removeOrderedArray i a).toList, x ∈ a.toList := by
  have hsize : (removeOrderedArray i a).size = sub64 a.size 1 := rfl
  have hpos : 0 < a.size := by
    refine Nat.pos_of_ne_zero fun h0 => ?_
    rw [hsize, h0] at h
    exact absurd h (by decide)
  rw [sub64_of_le hpos hs] at hsize
  refine ⟨by omega, fun x hx => ?_⟩
  obtain ⟨j, hj, rfl⟩ := mem_toList.1 hx
  unfold removeOrderedArray
  dsimp only
  rw [shiftDown_apply]
  split
  · exact array_mem (by omega)
  · exact array_mem (by omega)

theorem perm_insert (lt : α → α → Bool) (item : α) {a : OrderedArray α} (h : a.size + 1 < 2 ^ 64) :
    (insertOrderedArray lt item a).toList.Perm (item :: a.toList) := by
  rw [toList_insert lt item h]
  refine List.perm_middle.trans ?_
  rw [List.take_append_drop]

/-- An item above all the others goes to the end. -/
theorem toList_insert_last {lt : α → α → Bool} {item : α} {a : OrderedArray α}
    (h : a.size + 1 < 2 ^ 64) (hlt : ∀ x ∈ a.toList, lt x item = true) :
    (insertOrderedArray lt item a).toList = a.toList ++ [item] := by
  have hpos : insertPos lt item a = a.toList.length := by
    rw [length_toList]
    refine Nat.le_antisymm (insertPos_le lt item a) (Nat.le_of_not_lt fun hn => ?_)
    unfold insertPos at hn
    have hstop := scan_stop (fun i => lt (a.array i) item) (k := a.size) (i := 0) (by omega)
    rw [hlt _ (array_mem hn)] at hstop
    cases hstop
  rw [toList_insert lt item h, hpos, List.take_length, List.drop_length]

/-- A new item at the end is above all the others. -/
theorem lt_of_insert_last {lt : α → α → Bool} {item : α} {a : OrderedArray α}
    (h : a.size + 1 < 2 ^ 64) (hnew : item ∉ a.toList)
    (hl : (insertOrderedArray lt item a).toList = a.toList ++ [item]) :
    ∀ x ∈ a.toList, lt x item = true := by
  have hle := insertPos_le lt item a
  have hpos : insertPos lt item a = a.size := by
    refine Decidable.byContradiction fun hne => hnew ?_
    have hlt : insertPos lt item a < a.toList.length := by
      rw [length_toList]
      omega
    rw [toList_insert lt item h] at hl
    have hget := congrArg (fun l => l[insertPos lt item a]?) hl
    rw [List.getElem?_append_left hlt, List.getElem?_append_right (List.length_take_le _ _),
      List.length_take, Nat.min_eq_left (Nat.le_of_lt hlt), Nat.sub_self, List.getElem?_cons_zero,
      List.getElem?_eq_getElem hlt] at hget
    rw [Option.some.inj hget]
    exact List.getElem_mem hlt
  intro x hx
  obtain ⟨i, hi, rfl⟩ := mem_toList.1 hx
  exact scan_before (fun i => lt (a.array i) item) (Nat.zero_le i) (hpos ▸ hi)

theorem perm_remove {a : OrderedArray α} {i : Nat} (hi : i < a.size) (h : a.size < 2 ^ 64) :
    a.toList.Perm (a.array i :: (removeOrderedArray i a).toList) := by
  have hi' : i < a.toList.length := by simpa using hi
  rw [toList_remove hi h, List.eraseIdx_eq_take_drop_succ]
  refine .trans (.of_eq ?_) List.perm_middle
  rw [← getElem_toList a i hi', List.getElem_cons_drop, List.take_append_drop]

/-! ## Order -/

/-- The slots in use stand in the order of `key`. -/
def SortedBy (key : α → Nat) (a : OrderedArray α) : Prop :=
  a.toList.Pairwise fun x y => key x ≤ key y

section
variable {key key' : α → Nat} {a : OrderedArray α}

theorem sortedBy_iff : SortedBy key a ↔
    ∀ i j, i < j → j < a.size → key (a.array i) ≤ key (a.array j) := by
  unfold SortedBy
  rw [List.pairwise_iff_getElem]
  simp only [length_toList, getElem_toList]
  exact ⟨fun h i j hij hj => h i j (by omega) hj hij, fun h i j _ hj hij => h i j hij hj⟩

theorem sortedBy_place [Zero α] (addr : Nat → α) (maxSize : Nat) :
    SortedBy key (placeOrderedArray addr maxSize) := List.Pairwise.nil

theorem SortedBy.remove (h : SortedBy key a) {i : Nat} (hi : i < a.size) (hs : a.size < 2 ^ 64) :
    SortedBy key (removeOrderedArray i a) := by
  unfold SortedBy
  rw [toList_remove hi hs]
  exact h.sublist (List.eraseIdx_sublist _ _)

theorem SortedBy.congr (h : SortedBy key a) (hk : ∀ x ∈ a.toList, key' x = key x) :
    SortedBy key' a :=
  h.imp_of_mem fun hx hy hxy => by rwa [hk _ hx, hk _ hy]

/-- **Insertion keeps the order** of the key that the comparison looks at. -/
theorem SortedBy.insert (h : SortedBy key a) (item : α) (hs : a.size + 1 < 2 ^ 64) :
    SortedBy key (insertOrderedArray (fun x y => decide (key x < key y)) item a) := by
  have hsorted := sortedBy_iff.1 h
  unfold SortedBy
  rw [toList_insert _ _ hs]
  generalize hpos : insertPos (fun x y => decide (key x < key y)) item a = pos
  unfold insertPos at hpos
  have hbelow : ∀ x ∈ a.toList.take pos, key x ≤ key item := by
    intro x hx
    obtain ⟨i, hi, rfl⟩ := List.mem_iff_getElem.1 hx
    rw [List.length_take] at hi
    rw [List.getElem_take, getElem_toList]
    have := scan_before _ (Nat.zero_le i) (show i < scan _ a.size 0 by rw [hpos]; omega)
    simp only [decide_eq_true_eq] at this
    omega
  have habove : ∀ x ∈ a.toList.drop pos, key item ≤ key x := by
    intro x hx
    obtain ⟨i, hi, rfl⟩ := List.mem_iff_getElem.1 hx
    rw [List.length_drop, length_toList] at hi
    rw [List.getElem_drop, getElem_toList]
    -- the scan stopped at `pos`, and from there on the keys do not fall
    have hstop := scan_stop _ (show scan _ a.size 0 < 0 + a.size by rw [hpos]; omega)
    rw [hpos] at hstop
    simp only [decide_eq_false_iff_not, Nat.not_lt] at hstop
    rcases Nat.eq_zero_or_pos i with rfl | hpos'
    · exact hstop
    · exact Nat.le_trans hstop (hsorted pos (pos + i) (by omega) (by omega))
  rw [List.pairwise_append, List.pairwise_cons]
  refine ⟨h.sublist (List.take_sublist _ _), ⟨habove, h.sublist (List.drop_sublist _ _)⟩, ?_⟩
  intro x hx y hy
  rcases List.mem_cons.1 hy with rfl | hy
  · exact hbelow x hx
  · exact Nat.le_trans (hbelow x hx) (habove y hy)

/-- One key changed at slot `i` to `n`, which fits between the keys before and after. -/
theorem SortedBy.update (h : SortedBy key a) {i n : Nat} (hi : i < a.size)
    (hkeep : ∀ j < a.size, j ≠ i → key' (a.array j) = key (a.array j)) (hn : key' (a.array i) = n)
    (hfit : ∀ j < a.size, (j < i → key (a.array j) ≤ n) ∧ (i < j → n ≤ key (a.array j))) :
    SortedBy key' a := by
  rw [sortedBy_iff] at h ⊢
  intro j k hjk hk
  by_cases hj : j = i
  · subst hj
    rw [hn, hkeep k hk (by omega)]
    exact (hfit k hk).2 hjk
  · rw [hkeep j (by omega) hj]
    by_cases hki : k = i
    · subst hki
      rw [hn]
      exact (hfit j (by omega)).1 hjk
    · rw [hkeep k hk hki]
      exact h j k hjk hk

end

end OrderedArray
