import Jaos.Corelib.Memmove
import Jaos.Corelib.Strings
import Jaos.Lib.Words

/-!
# The words of a command line (`user/shell.c`)

`token` looks for word number `num` of a line in one pass: a flag says whether the byte it reads is in
a word, and a word is counted when a space, a newline or the NUL ends it. The loop would go one byte
past the NUL, but ends there at the latest. `Scanned` is the state in the middle of a word `cur`, and
`tokenFrom_spec` says where the loop ends: at the word with that number of `cur` and what follows, or
with another count if there is none (`token_word`).
-/

namespace Shell

open Lib Cells Corelib

def newline : UInt8 := 0x0A
def space : UInt8 := 0x20

/-! ## The code -/

/-- The variables of `token`; `stop` is `end`. -/
structure Vars where
  start : Nat
  stop : Nat
  words : Nat
  inWord : Bool

/-- `if (in_word)`. -/
def Vars.close (i : Nat) (v : Vars) : Vars :=
  if v.inWord then { v with stop := i, inWord := false, words := v.words + 1 } else v

/-- `else if (!in_word)`. -/
def Vars.enter (i : Nat) (v : Vars) : Vars :=
  if v.inWord then v else { v with start := i, inWord := true }

/-- The body of the loop of `token`, where `str[i]` is `c`; true for `break`. -/
def tokenStep (num : Int) (i : Nat) (c : UInt8) (v : Vars) : Bool × Vars :=
  if c = 0 ∨ c = newline ∨ c = space then
    let v := v.close i
    if c = 0 ∨ c = newline then (true, v) else (decide (v.words = num), v)
  else
    let v := v.enter i
    (decide (v.words = num), v)

/-- The loop of `token` from `i` on, at most `k` times round: then the `int` overflows. -/
def tokenFrom (m : Cells) (str : Nat) (num : Int) : (k i : Nat) → Vars → Option Vars
  | 0, _, _ => none
  | k + 1, i, v =>
    (strlen m str).bind fun len =>
      if i < len + 1 then
        (m (str + i)).bind fun c =>
          let r := tokenStep num i c v
          if r.1 then some r.2 else tokenFrom m str num k (i + 1) r.2
      else some v

/-- `token`: the pointer it returns and the memory. `sizeof(token)` is that of a pointer. -/
def token (str : Nat) (num : Int) (tok : Nat) (m : Cells) : Option (Nat × Cells) :=
  if num = 0 then some (0, m)
  else
    (tokenFrom m str num (2 ^ 31) 0 ⟨0, 0, 0, false⟩).bind fun v =>
      if v.words ≠ num then (memset tok 0 8 m).map fun m => (tok, m)
      else
        let len : Int := v.stop - v.start
        (strncpy tok (str + v.start) len m).bind fun r =>
          (r.2.put (tok + len).toNat 0).map fun m => (tok, m)

/-! ## The words of a line -/

/-- A byte of a word. -/
def inWord (c : UInt8) : Bool := c ≠ space

/-- The bytes in front of the first newline. -/
def line (s : List UInt8) : List UInt8 := s.takeWhile (· ≠ newline)

/-- Word number `num` of the line, counted from 1; nothing if there are fewer. -/
def wordAt (s : List UInt8) (num : Int) : List UInt8 := ((words inWord (line s))[num.toNat - 1]?).getD []

/-! ## The loop -/

/-- The loop has come to byte `i`, in the word `cur`, or in none if that is empty. -/
structure Scanned (m : Cells) (str i : Nat) (cur : List UInt8) (v : Vars) : Prop where
  flag : v.inWord = true ↔ cur ≠ []
  place : cur ≠ [] → v.start + cur.length = i
  bytes : cur ≠ [] → m.Holds (str + v.start) cur
  letters : ∀ c ∈ cur, inWord c
  noNul : 0 ∉ cur

/-- The loop has ended at the word, which ends in front of byte `i`, or has not found one. -/
def EndsAt (m : Cells) (str : Nat) (num : Int) (n : Nat) (v : Vars) : Option (List UInt8) → Prop
  | some w => v.words = num ∧ v.stop = v.start + w.length ∧ v.stop ≤ n ∧
      m.Holds (str + v.start) w ∧ 0 ∉ w
  | none => v.words ≠ num

section
variable {m : Cells} {str i k n : Nat} {num : Int} {s l cur : List UInt8} {v : Vars} {c : UInt8}

@[simp] theorem words_enter : (v.enter i).words = v.words := by
  unfold Vars.enter
  split <;> rfl

/-- Between two words nothing ends. -/
theorem Scanned.close_nil (h : Scanned m str i [] v) : v.close i = v := by
  simp [Vars.close, h.flag]

/-- The end of a word. -/
theorem Scanned.close_word (h : Scanned m str i cur v) (hcur : cur ≠ []) :
    v.close i = { v with stop := i, inWord := false, words := v.words + 1 } := by
  simp [Vars.close, h.flag, hcur]

/-- Behind the end of a word. -/
theorem Scanned.closed (h : Scanned m str i cur v) : Scanned m str (i + 1) [] (v.close i) := by
  have hflag : (v.close i).inWord = false := by
    by_cases hcur : cur = []
    · subst hcur
      simpa [h.close_nil] using h.flag
    · simp [h.close_word hcur]
  exact ⟨by simp [hflag], by simp, by simp, by simp, by simp⟩

/-- The loop ends with the word `cur`. -/
theorem Scanned.ends (h : Scanned m str i cur v) (hcur : cur ≠ []) (hi : i ≤ n)
    (hv : (v.words : Int) + 1 = num) : EndsAt m str num n (v.close i) (some cur) := by
  rw [h.close_word hcur]
  exact ⟨hv, (h.place hcur).symm, hi, h.bytes hcur, h.noNul⟩

/-- A byte of a word. -/
theorem Scanned.letter (h : Scanned m str i cur v) (hc : m (str + i) = some c) (h0 : c ≠ 0)
    (hw : inWord c = true) :
    Scanned m str (i + 1) (cur ++ [c]) (v.enter i) := by
  have hletters : ∀ x ∈ cur ++ [c], inWord x := by simpa [hw, or_imp, forall_and] using h.letters
  have hnul : 0 ∉ cur ++ [c] := by simpa [Ne.symm h0] using h.noNul
  by_cases hcur : cur = []
  · have hflag : ¬ v.inWord = true := fun hin => h.flag.1 hin hcur
    rw [Vars.enter, if_neg hflag]
    refine ⟨by simp, by simp [hcur], fun _ j hj => ?_, hletters, hnul⟩
    obtain rfl : j = 0 := by simpa [hcur] using hj
    simpa [hcur] using hc
  · have hplace := h.place hcur
    rw [Vars.enter, if_pos (h.flag.2 hcur)]
    refine ⟨by simpa using h.flag.2 hcur, fun _ => ?_, fun _ j hj => ?_, hletters, hnul⟩
    · rw [List.length_append, ← Nat.add_assoc, hplace]
      rfl
    · rw [List.length_append] at hj
      rcases Nat.lt_succ_iff_lt_or_eq.1 hj with hj | rfl
      · rw [List.getElem?_append_left hj]
        exact h.bytes hcur j hj
      · rw [List.getElem?_concat_length, Nat.add_assoc, hplace]
        exact hc

/-- The loop ends at a NUL or a newline. -/
theorem Scanned.stop (h : Scanned m str i cur v) (hi : i ≤ n) (hv : v.words < num) :
    EndsAt m str num n (v.close i) (words inWord cur)[num.toNat - v.words - 1]? := by
  rw [words_end h.letters]
  by_cases hcur : cur = []
  · subst hcur
    rw [if_pos rfl, List.getElem?_nil, h.close_nil]
    exact Int.ne_of_lt hv
  · rw [if_neg hcur]
    by_cases hnum : (v.words : Int) + 1 = num
    · rw [show num.toNat - v.words - 1 = 0 by omega]
      exact h.ends hcur hi hnum
    · rw [List.getElem?_eq_none (by simp; omega), h.close_word hcur]
      exact hnum

theorem tokenStep_space : tokenStep num i space v = (decide ((v.close i).words = num), v.close i) := by
  simp [tokenStep, space, newline]

theorem tokenStep_letter (h0 : c ≠ 0) (hn : c ≠ newline) (hs : c ≠ space) :
    tokenStep num i c v = (decide (v.words = num), v.enter i) := by
  simp [tokenStep, h0, hn, hs]

theorem line_cons (hc : c ≠ newline) : line (c :: l) = c :: line l := by simp [line, hc]

theorem line_newline : line (newline :: l) = [] := by simp [line]

/-- **The loop** ends at the word with the number `num`, of those in the line from `cur` on. -/
theorem tokenFrom_spec (hs : m.CString str s) (hlen : s.length < 2 ^ 63 - 1)
    (hl : m.CString (str + i) l) (hi : i + l.length = s.length) (hk : l.length < k)
    (h : Scanned m str i cur v) (hv : v.words < num) :
    ∃ v', tokenFrom m str num k i v = some v' ∧
      EndsAt m str num s.length v' (words inWord (cur ++ line l))[num.toNat - v.words - 1]? := by
  induction l generalizing i k cur v with
  | nil =>
    obtain ⟨k, rfl⟩ := Nat.exists_eq_succ_of_ne_zero (Nat.ne_of_gt hk)
    refine ⟨v.close i, ?_, by simpa [line] using h.stop (by simp at hi; omega) hv⟩
    simp [tokenFrom, tokenStep, strlen_eq hs hlen, hl.nil_eq]
    simp at hi
    omega
  | cons c l ih =>
    obtain ⟨k, rfl⟩ := Nat.exists_eq_succ_of_ne_zero (Nat.ne_of_gt (Nat.zero_lt_of_lt hk))
    obtain ⟨hc, hc0, hl'⟩ := hl.cons_eq
    rw [List.length_cons] at hi hk
    have hrun : tokenFrom m str num (k + 1) i v =
        if (tokenStep num i c v).1 then some (tokenStep num i c v).2
        else tokenFrom m str num k (i + 1) (tokenStep num i c v).2 := by
      rw [tokenFrom, strlen_eq hs hlen, Option.bind_some, if_pos (by omega), hc]
      rfl
    rw [hrun]
    by_cases hnl : c = newline
    · refine ⟨v.close i, by simp [tokenStep, hnl], ?_⟩
      rw [hnl, line_newline, List.append_nil]
      exact h.stop (by omega) hv
    rw [line_cons hnl]
    by_cases hsp : c = space
    · subst hsp
      rw [tokenStep_space, words_sep h.letters (by decide)]
      by_cases hcur : cur = []
      · -- between two words
        subst hcur
        have hclosed := h.closed
        rw [h.close_nil] at hclosed ⊢
        rw [if_neg (by simpa using Int.ne_of_lt hv)]
        exact ih hl' (by omega) (by omega) hclosed hv
      · rw [if_neg hcur]
        by_cases hnum : (v.words : Int) + 1 = num
        · refine ⟨v.close i, if_pos (by simpa [h.close_word hcur] using hnum), ?_⟩
          rw [show num.toNat - v.words - 1 = 0 by omega]
          exact h.ends hcur (by omega) hnum
        · have hwords : (v.close i).words = v.words + 1 := by rw [h.close_word hcur]
          obtain ⟨v', hrun, hend⟩ := ih (i := i + 1) (k := k) hl' (by omega) (by omega) h.closed (by omega)
          refine ⟨v', by rw [if_neg (by simpa [hwords] using hnum), hrun], ?_⟩
          rw [List.getElem?_append_right (by simp; omega)]
          rw [hwords] at hend
          simpa [show num.toNat - v.words - 1 - 1 = num.toNat - (v.words + 1) - 1 by omega] using hend
    · have hletter : inWord c = true := by simpa [inWord] using hsp
      obtain ⟨v', hrun, hend⟩ := ih (i := i + 1) (k := k) hl' (by omega) (by omega) (h.letter hc hc0 hletter)
        (by simpa using hv)
      refine ⟨v', ?_, by simpa using hend⟩
      rw [tokenStep_letter hc0 hnl hsp, if_neg (by simpa using Int.ne_of_lt hv), hrun]

end

/-- **`token` extracts a word**: what it leaves at `tok` is word number `num` of the line, and it
accesses no other cells than those of the string up to its NUL and those it writes. -/
theorem token_word {m : Cells} {str tok : Nat} {s : List UInt8} {num : Int} (hs : m.CString str s)
    (hlen : s.length < 2 ^ 31 - 2) (hnum : 1 ≤ num)
    (hroom : m.Has tok (max 8 ((wordAt s num).length + 1)))
    (hapart : tok + max 8 ((wordAt s num).length + 1) ≤ str ∨ str + s.length + 1 ≤ tok) :
    ∃ m', token str num tok m = some (tok, m') ∧ m'.CString tok (wordAt s num) ∧
      Agree m m' tok (max 8 ((wordAt s num).length + 1)) := by
  have hstart : Scanned m str 0 [] ⟨0, 0, 0, false⟩ := ⟨by simp, by simp, by simp, by simp, by simp⟩
  obtain ⟨v, hrun, hend⟩ := tokenFrom_spec (k := 2 ^ 31) (i := 0) (v := ⟨0, 0, 0, false⟩) hs
    (by omega) (by simpa using hs) (by simp) (by omega) hstart
    (show ((0 : Nat) : Int) < num by omega)
  unfold token
  rw [if_neg (by omega), hrun, Option.bind_some]
  rw [List.nil_append, Nat.sub_zero] at hend
  unfold wordAt at hroom hapart ⊢
  generalize (words inWord (line s))[num.toNat - 1]? = r at hend hroom hapart ⊢
  cases r with
  | none =>
    have hroom' : m.Has tok 8 := hroom
    obtain ⟨m', hset, hbytes, hagree⟩ := memset_spec (c := 0) (n := 8) (by decide) hroom'
    refine ⟨m', ?_, ⟨by simp [Holds], by simpa using hbytes 0, by simp⟩, hagree⟩
    have hne : (v.words : Int) ≠ num := hend
    rw [if_pos hne]
    simpa using hset
  | some w =>
    obtain ⟨hwords, hstop, hin, hbytes, h0⟩ := hend
    simp only [Option.getD_some] at hroom hapart ⊢
    have hroom' : m.Has tok w.length := fun i hi => hroom i (by omega)
    obtain ⟨t, hcopy, hholds, hagree⟩ := strncpy_spec hbytes h0 hroom' (by omega) (by omega)
    have hcell : (t (tok + w.length)).isSome := by
      rw [hagree _ (by omega)]
      exact hroom w.length (by omega)
    obtain ⟨m', hput⟩ : ∃ m', t.put (tok + w.length) 0 = some m' := ⟨_, put_eq hcell⟩
    obtain ⟨hnul, hother⟩ := put_spec hput
    have hlen' : (v.stop : Int) - v.start = w.length := by omega
    have hplace : ((tok : Int) + w.length).toNat = tok + w.length := by omega
    refine ⟨m', ?_, ⟨fun i hi => ?_, hnul, h0⟩, ?_⟩
    · rw [if_neg (by simpa using hwords), hlen', hcopy, Option.bind_some]
      simp [hplace, hput]
    · rw [hother _ (by omega)]
      exact hholds i hi
    · exact (hagree.mono (Nat.le_refl _) (by omega)).put (by omega) hput

/-- `EX  SH`, a newline and the rest of an older line; the second word goes to 300. -/
def execShell (x : Nat) : Option UInt8 :=
  if x < 100 then none
  else if x < 300 then [0x45, 0x58, 0x20, 0x20, 0x53, 0x48, 0x0A, 0x20, 0x41, 0][x - 100]?
  else if x < 308 then some 0xFF
  else none

theorem token_word_execShell : ∃ m', token 100 2 300 execShell = some (300, m') ∧
    m'.CString 300 (wordAt [0x45, 0x58, 0x20, 0x20, 0x53, 0x48, 0x0A, 0x20, 0x41] 2) ∧
    Agree execShell m' 300
      (max 8 ((wordAt [0x45, 0x58, 0x20, 0x20, 0x53, 0x48, 0x0A, 0x20, 0x41] 2).length + 1)) :=
  token_word ⟨by unfold Holds; decide, rfl, by decide⟩ (by decide) (by decide) (by unfold Has; decide)
    (by decide)

example : wordAt [0x45, 0x58, 0x20, 0x20, 0x53, 0x48, 0x0A, 0x20, 0x41] 2 = [0x53, 0x48] := by decide

end Shell
