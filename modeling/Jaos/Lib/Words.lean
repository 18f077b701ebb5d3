import Mathlib

/-!
# Words

`words p l` are the maximal runs of elements with `p` in the list `l`, from left to right. A word that is
not at its end yet is a list `cur` in front of the rest: `words_end` and `words_sep` close it, at the end
of the list or at an element between two words.
-/

namespace Lib

section
variable {α : Type} {p : α → Bool} {c : α} {cur l w : List α}

/-- The maximal runs of elements with `p`: such an element belongs to the run that begins right behind
it, or is one of its own. -/
def words (p : α → Bool) : List α → List (List α)
  | [] => []
  | c :: l =>
    if p c then
      if l.head?.any p then (words p l).modifyHead (c :: ·) else [c] :: words p l
    else words p l

theorem words_cons_sep (h : p c = false) : words p (c :: l) = words p l := by simp [words, h]

/-- A word up to its end. -/
theorem words_append (hcur : cur ≠ []) (hp : ∀ c ∈ cur, p c) (hl : l.head?.any p = false) :
    words p (cur ++ l) = cur :: words p l := by
  induction cur with
  | nil => exact absurd rfl hcur
  | cons c cur ih =>
    have hc : p c = true := hp c (by simp)
    cases cur with
    | nil => simp [words, hc, hl]
    | cons d cur =>
      have hd : p d = true := hp d (by simp)
      rw [List.cons_append, words, if_pos hc, if_pos (by simp [hd]),
        ih (by simp) fun x hx => hp x (by simp [hx])]
      rfl

/-- The word that the end of the list closes, if there is one. -/
theorem words_end (hp : ∀ c ∈ cur, p c) : words p cur = if cur = [] then [] else [cur] := by
  by_cases hcur : cur = []
  · simp [hcur, words]
  · simpa [hcur, words] using words_append hcur hp (l := []) rfl

/-- The word that another element closes, if there is one. -/
theorem words_sep (hp : ∀ c ∈ cur, p c) (hc : p c = false) :
    words p (cur ++ c :: l) = (if cur = [] then [] else [cur]) ++ words p l := by
  by_cases hcur : cur = []
  · simp [hcur, words_cons_sep hc]
  · rw [words_append hcur hp (by simp [hc]), words_cons_sep hc, if_neg hcur]
    rfl

end

end Lib
