import Jaos.Lib.Numerals

/-!
# Printing numbers (`kernel/monitor.c`)

`putint` and `puthex` up to the string that they give to `puts`. `itoa` divides the number down and
writes the digits to `tbuf`, last one first; a second loop copies them in the other order behind what
the caller has written. Both buffers have 32 bytes, and an access behind their end is `none`
(`itoa_spec`). `putint` negates a negative number, and the most negative one is its own negative, but
`itoa` takes it as unsigned (`putint_spec`). The two locks around `puts` are left out.
-/

namespace Monitor

open Lib

/-! ## The code -/

/-- `tbuf`, or the `str` of `putint` and `puthex`. -/
abbrev Buffer := Vector (BitVec 8) 32

/-- `buffer[i] = c`. -/
def Buffer.put (b : Buffer) (i : Nat) (c : BitVec 8) : Option Buffer :=
  if h : i < 32 then some (b.set i c h) else none

/-- `bchars`. -/
def bchars : List (BitVec 8) :=
  [0x30, 0x31, 0x32, 0x33, 0x34, 0x35, 0x36, 0x37, 0x38, 0x39, 0x41, 0x42, 0x43, 0x44, 0x45, 0x46]

/-- `while (i != 0)` of `itoa`: `pos` and `tbuf` behind it. -/
def itoaDigits (base : Nat) : (fuel i pos : Nat) → Buffer → Option (Nat × Buffer)
  | 0, _, _, _ => none
  | fuel + 1, i, pos, tbuf =>
    if i ≠ 0 then
      bchars[i % base]?.bind fun c =>
        (tbuf.put pos c).bind (itoaDigits base fuel (i / base) (pos + 1))
    else some (pos, tbuf)

/-- `for (opos = 0; opos < top; pos--, opos++)` of `itoa` from `opos` on; `pos` is `k - 1`. -/
def itoaReverse (tbuf : Buffer) (buf : Nat) : (k opos : Nat) → Buffer → Option Buffer
  | 0, _, str => some str
  | k + 1, opos, str =>
    tbuf[k]?.bind fun c => (str.put (buf + opos) c).bind (itoaReverse tbuf buf k (opos + 1))

/-- `itoa`, where `buf` is an offset in `str`; `tbuf` and `str` behind it. The 32 bytes of `tbuf` bound
the rounds of its first loop. -/
def itoa (i base buf : Nat) (tbuf str : Buffer) : Option (Buffer × Buffer) :=
  if i = 0 ∨ base > 16 then
    (str.put buf 0x30).bind fun str => (str.put (buf + 1) 0).map fun str => (tbuf, str)
  else if base = 0 then none
  else
    (itoaDigits base 33 i 0 tbuf).bind fun r =>
      (itoaReverse r.2 buf r.1 0 str).bind fun str =>
        (str.put (buf + r.1) 0).map fun str => (r.2, str)

/-- `itoa_s`. -/
def itoaS (i : Int64) (base buf : Nat) (tbuf str : Buffer) : Option (Buffer × Buffer) :=
  if base > 16 then some (tbuf, str)
  else if i < 0 then
    (str.put buf 0x2D).bind fun str => itoa (i * -1).toUInt64.toNat base (buf + 1) tbuf str
  else itoa i.toUInt64.toNat base buf tbuf str

/-- `uitoa_s`. -/
def uitoaS (i : UInt64) (base buf : Nat) (tbuf str : Buffer) : Option (Buffer × Buffer) :=
  if base > 16 then some (tbuf, str) else itoa i.toNat base buf tbuf str

/-- The string that `puts` gets; there has to be a NUL. -/
def putsArg (str : Buffer) : Option (List (BitVec 8)) :=
  if 0 ∈ str.toList then some (str.toList.takeWhile (· ≠ 0)) else none

/-- `putint`: `tbuf` behind it and the string for `puts`. -/
def putint (i : Int64) (tbuf : Buffer) : Option (Buffer × List (BitVec 8)) :=
  (itoaS i 10 0 tbuf (.replicate 32 0)).bind fun r => (putsArg r.2).map fun s => (r.1, s)

/-- `puthex`: `tbuf` behind it and the string for `puts`. -/
def puthex (i : UInt64) (tbuf : Buffer) : Option (Buffer × List (BitVec 8)) :=
  (Buffer.put (.replicate 32 0) 0 0x30).bind fun str => (str.put 1 0x78).bind fun str =>
    (uitoaS i 16 2 tbuf str).bind fun r => (putsArg r.2).map fun s => (r.1, s)

/-! ## Numerals -/

/-- The value of a digit. -/
def digitValue (base : Nat) (c : BitVec 8) : Option Nat := bchars.findIdx? (· = c) |>.filter (· < base)

/-- The string is the numeral of `i` with its sign. -/
def IsDecimal (i : Int) (s : List (BitVec 8)) : Prop :=
  if i < 0 then ∃ t, s = 0x2D :: t ∧ IsNumeral (digitValue 10) 10 (-i).toNat t
  else IsNumeral (digitValue 10) 10 i.toNat s

/-- The string is `0x` and the numeral of `i`. -/
def IsHexadecimal (i : Nat) (s : List (BitVec 8)) : Prop :=
  ∃ t, s = 0x30 :: 0x78 :: t ∧ IsNumeral (digitValue 16) 16 i t

/-- The digits of `i` as `itoa` writes them. -/
def numeral (base i : Nat) : List (BitVec 8) :=
  if i = 0 then [bchars.getD 0 0] else ((Nat.digits base i).map (bchars.getD · 0)).reverse

/-! ## `itoa` -/

section
variable {base i pos fuel buf k opos : Nat} {tbuf str : Buffer}

theorem put_spec {b : Buffer} {c : BitVec 8} (h : i < 32) :
    ∃ b', b.put i c = some b' ∧ ∀ j, b'[j]? = if i = j then some c else b[j]? :=
  ⟨b.set i c h, dif_pos h, fun _ => Vector.getElem?_set h⟩

theorem bchars_getElem? {d : Nat} (h : d < 16) : bchars[d]? = some (bchars.getD d 0) := by
  have hlen : d < bchars.length := h
  simp [List.getD, hlen]

/-- **The first loop** leaves the digits behind `pos`, the last one first. -/
theorem itoaDigits_spec (hb : 1 < base) (hb16 : base ≤ 16)
    (hroom : pos + (Nat.digits base i).length ≤ 32) (hfuel : (Nat.digits base i).length < fuel) :
    ∃ t, itoaDigits base fuel i pos tbuf = some (pos + (Nat.digits base i).length, t) ∧
      (∀ j < pos, t[j]? = tbuf[j]?) ∧
      ∀ j < (Nat.digits base i).length, t[pos + j]? = ((Nat.digits base i).map (bchars.getD · 0))[j]? := by
  induction fuel generalizing i pos tbuf with
  | zero => omega
  | succ fuel ih =>
    unfold itoaDigits
    rcases Nat.eq_zero_or_pos i with rfl | hpos
    · exact ⟨tbuf, by simp, fun _ _ => rfl, by simp⟩
    · have hdigits := Nat.digits_def' hb hpos
      rw [hdigits, List.length_cons] at hroom hfuel ⊢
      have hd : i % base < 16 := Nat.lt_of_lt_of_le (Nat.mod_lt _ (by omega)) hb16
      obtain ⟨t, hput, ht⟩ := @put_spec pos tbuf (bchars.getD (i % base) 0) (by omega)
      obtain ⟨t', hrun, hold, hnew⟩ := @ih (i / base) (pos + 1) t (by omega) (by omega)
      refine ⟨t', ?_, fun j hj => ?_, fun j hj => ?_⟩
      · rw [if_pos (by omega), bchars_getElem? hd, Option.bind_some, hput, Option.bind_some, hrun]
        simp [Nat.add_assoc, Nat.add_comm 1]
      · rw [hold j (by omega), ht, if_neg (by omega)]
      · cases j with
        | zero => simp [hold pos (by omega), ht]
        | succ j =>
          have := hnew j (by omega)
          simpa [Nat.add_assoc, Nat.add_comm 1] using this

/-- **The second loop** copies the first `k` bytes of `tbuf` in the other order. -/
theorem itoaReverse_spec (hk : k ≤ 32) (hroom : buf + opos + k ≤ 32) :
    ∃ s, itoaReverse tbuf buf k opos str = some s ∧
      ∀ j, s[j]? = if buf + opos ≤ j ∧ j < buf + opos + k then tbuf[buf + opos + k - 1 - j]?
        else str[j]? := by
  induction k generalizing opos str with
  | zero => exact ⟨str, rfl, fun j => by rw [if_neg (by omega)]⟩
  | succ k ih =>
    unfold itoaReverse
    have hlt : k < 32 := by omega
    obtain ⟨t, hput, ht⟩ := @put_spec (buf + opos) str tbuf[k] (by omega)
    obtain ⟨s, hrun, hs⟩ := @ih (opos + 1) t (by omega) (by omega)
    refine ⟨s, ?_, fun j => ?_⟩
    · rw [Vector.getElem?_eq_getElem hlt, Option.bind_some, hput, Option.bind_some, hrun]
    · rw [hs, ht]
      by_cases hj : buf + opos = j
      · rw [if_neg (by omega), if_pos hj, if_pos (by omega), show buf + opos + (k + 1) - 1 - j = k by omega,
          Vector.getElem?_eq_getElem hlt]
      · rw [if_neg hj]
        split <;> split
        · congr 1
          omega
        · omega
        · omega
        · rfl

theorem length_numeral_le (hb : 1 < base) {n : Nat} (hn : 1 ≤ n) (hi : i < base ^ n) :
    (numeral base i).length ≤ n := by
  unfold numeral
  split
  · simpa using hn
  · simpa using (Nat.digits_length_le_iff hb i).2 hi

/-- **`itoa`** writes the numeral and a NUL. -/
theorem itoa_spec (hb : 1 < base) (hb16 : base ≤ 16) (hroom : buf + (numeral base i).length < 32) :
    ∃ t s, itoa i base buf tbuf str = some (t, s) ∧ (∀ j < buf, s[j]? = str[j]?) ∧
      (∀ j < (numeral base i).length, s[buf + j]? = (numeral base i)[j]?) ∧
      s[buf + (numeral base i).length]? = some 0 := by
  unfold itoa
  by_cases h0 : i = 0
  · subst h0
    have hnum : numeral base 0 = [0x30] := rfl
    rw [hnum] at hroom ⊢
    obtain ⟨s, hput, hs⟩ := @put_spec buf str 0x30 (by omega)
    obtain ⟨s', hput', hs'⟩ := @put_spec (buf + 1) s 0 hroom
    refine ⟨tbuf, s', ?_, fun j hj => ?_, fun j hj => ?_, by simp [hs']⟩
    · rw [if_pos (.inl rfl), hput, Option.bind_some, hput']
      rfl
    · rw [hs', hs, if_neg (by omega), if_neg (by omega)]
    · obtain rfl : j = 0 := by simpa using hj
      simp [hs', hs]
  · have hnum : numeral base i = ((Nat.digits base i).map (bchars.getD · 0)).reverse := if_neg h0
    have hL : (numeral base i).length = (Nat.digits base i).length := by simp [hnum]
    obtain ⟨t, hrun, -, ht⟩ := @itoaDigits_spec base i 0 33 tbuf hb hb16 (by omega) (by omega)
    rw [Nat.zero_add] at hrun
    obtain ⟨s, hrun', hs⟩ := @itoaReverse_spec buf (Nat.digits base i).length 0 t str (by omega) (by omega)
    obtain ⟨s', hput, hs'⟩ := @put_spec (buf + (Nat.digits base i).length) s 0 (by omega)
    refine ⟨t, s', ?_, fun j hj => ?_, fun j hj => ?_, ?_⟩
    · rw [if_neg (by omega), if_neg (by omega), hrun, Option.bind_some, hrun', Option.bind_some, hput]
      rfl
    · rw [hs', hs, if_neg (by omega), if_neg (by omega)]
    · rw [hs', hs, if_neg (by omega), if_pos (by omega), hnum, List.getElem?_reverse (by simp; omega)]
      have := ht ((Nat.digits base i).length - 1 - j) (by omega)
      rw [Nat.zero_add] at this
      rw [List.length_map, ← this]
      congr 1
      omega
    · rw [hs', if_pos (by omega)]

end

/-! ## The strings -/

theorem digitValue_getD {base d : Nat} (hb : base = 10 ∨ base = 16) (h : d < base) :
    digitValue base (bchars.getD d 0) = some d := by
  have hall : ∀ d < 16, (bchars.findIdx? (· = bchars.getD d 0)) = some d := by decide
  unfold digitValue
  rw [hall d (by omega)]
  simp [h]

theorem isNumeral_numeral {base : Nat} (hb : base = 10 ∨ base = 16) (i : Nat) :
    IsNumeral (digitValue base) base i (numeral base i) := by
  unfold numeral
  split
  · rename_i h0
    subst h0
    exact isNumeral_zero (digitValue_getD hb (by omega))
  · rename_i h0
    exact isNumeral_digits (by omega) h0 fun d hd => digitValue_getD hb hd

theorem zero_notMem_numeral {base i : Nat} (hb : 1 < base) (hb16 : base ≤ 16) :
    0 ∉ numeral base i := by
  have hall : ∀ d < 16, bchars.getD d 0 ≠ 0 := by decide
  unfold numeral
  split
  · decide
  · intro hmem
    obtain ⟨d, hd, h0⟩ := List.mem_map.1 (List.mem_reverse.1 hmem)
    exact hall d (Nat.lt_of_lt_of_le (Nat.digits_lt_base hb hd) hb16) h0

/-- A string and its NUL in the buffer. -/
theorem putsArg_eq {str : Buffer} {t : List (BitVec 8)} (ht : ∀ j < t.length, str[j]? = t[j]?)
    (hnul : str[t.length]? = some 0) (h0 : 0 ∉ t) : putsArg str = some t := by
  have hprefix : t <+: str.toList := List.prefix_iff_getElem?.2 fun j hj => by
    rw [Vector.getElem?_toList, ht j hj, List.getElem?_eq_getElem hj]
  obtain ⟨r, hr⟩ := hprefix
  have hhead : r[0]? = some 0 := by
    rw [← Vector.getElem?_toList, ← hr, List.getElem?_append_right (Nat.le_refl _), Nat.sub_self] at hnul
    exact hnul
  obtain ⟨r, rfl⟩ : ∃ r', r = 0 :: r' := by
    cases r with
    | nil => cases hhead
    | cons c r => exact ⟨r, by rw [Option.some.inj hhead]⟩
  have hall : ∀ c ∈ t, decide (c ≠ 0) = true := fun c hc => by
    simpa using fun h : c = 0 => h0 (h ▸ hc)
  rw [putsArg, ← hr, if_pos (by simp), List.takeWhile_append_of_pos hall]
  simp

/-- The numeral behind what is in the buffer already. -/
theorem itoa_putsArg {base i n : Nat} {pre : List (BitVec 8)} {tbuf str : Buffer}
    (hb : 1 < base) (hb16 : base ≤ 16) (hn : 1 ≤ n) (hi : i < base ^ n) (hroom : pre.length + n < 32)
    (hpre : ∀ j < pre.length, str[j]? = pre[j]?) (h0 : 0 ∉ pre) :
    ∃ t s, itoa i base pre.length tbuf str = some (t, s) ∧ putsArg s = some (pre ++ numeral base i) := by
  have hlen := length_numeral_le hb hn hi
  obtain ⟨t, s, hrun, hold, hnum, hnul⟩ := @itoa_spec base i pre.length tbuf str hb hb16 (by omega)
  refine ⟨t, s, hrun, putsArg_eq (fun j hj => ?_) (by simpa using hnul) ?_⟩
  · rw [List.length_append] at hj
    rcases Nat.lt_or_ge j pre.length with hlt | hge
    · rw [List.getElem?_append_left hlt, hold j hlt, hpre j hlt]
    · rw [List.getElem?_append_right hge, ← hnum _ (by omega), Nat.add_sub_cancel' hge]
  · have hzero : 0 ∉ numeral base i := zero_notMem_numeral hb hb16
    exact fun hmem => (List.mem_append.1 hmem).elim h0 hzero

theorem toNat_neg {i : Int64} (h : i < 0) : (i * -1).toUInt64.toNat = (-i.toInt).toNat := by
  have h1 : i.toInt < 0 := by simpa [Int64.lt_iff_toInt_lt] using h
  have hneg : i * -1 = -i := by rw [Int64.mul_comm, ← Int64.neg_eq_neg_one_mul]
  have hbits : (-i).toUInt64.toNat = (-i.toBitVec).toNat := rfl
  have hint : i.toInt = i.toBitVec.toInt := rfl
  have hlt := i.toBitVec.isLt
  rw [hneg, hbits, BitVec.toNat_neg]
  rw [hint, BitVec.toInt_eq_toNat_cond] at h1 ⊢
  split at h1 <;> split <;> omega

theorem toNat_of_nonneg {i : Int64} (h : ¬ i < 0) : i.toUInt64.toNat = i.toInt.toNat := by
  have h1 : ¬ i.toInt < 0 := by simpa [Int64.lt_iff_toInt_lt] using h
  have hbits : i.toUInt64.toNat = i.toBitVec.toNat := rfl
  have hint : i.toInt = i.toBitVec.toInt := rfl
  have hlt := i.toBitVec.isLt
  rw [hbits]
  rw [hint, BitVec.toInt_eq_toNat_cond] at h1 ⊢
  split at h1 <;> split <;> omega

/-- **`putint`** prints the numeral with its sign. -/
theorem putint_spec (i : Int64) (tbuf : Buffer) :
    ∃ t s, putint i tbuf = some (t, s) ∧ IsDecimal i.toInt s := by
  have hmin := i.le_toInt
  have hmax := i.toInt_lt
  unfold putint itoaS
  rw [if_neg (by decide)]
  by_cases hneg : i < 0
  · have hlt : i.toInt < 0 := by simpa [Int64.lt_iff_toInt_lt] using hneg
    obtain ⟨str, hput, hstr⟩ := @put_spec 0 (.replicate 32 0) 0x2D (by decide)
    obtain ⟨t, s, hrun, hputs⟩ := @itoa_putsArg 10 (-i.toInt).toNat 19 [0x2D] tbuf str (by decide)
      (by decide) (by decide) (by omega) (by decide) (by simp [hstr]) (by decide)
    refine ⟨t, 0x2D :: numeral 10 (-i.toInt).toNat, ?_, ?_⟩
    · rw [if_pos hneg, hput, Option.bind_some, toNat_neg hneg]
      exact (congrArg (Option.bind · _) hrun).trans (by rw [Option.bind_some, hputs]; rfl)
    · rw [IsDecimal, if_pos hlt]
      exact ⟨_, rfl, isNumeral_numeral (.inl rfl) _⟩
  · have hge : ¬ i.toInt < 0 := by simpa [Int64.lt_iff_toInt_lt] using hneg
    obtain ⟨t, s, hrun, hputs⟩ := @itoa_putsArg 10 i.toInt.toNat 19 [] tbuf (.replicate 32 0) (by decide)
      (by decide) (by decide) (by omega) (by decide) (by simp) (by simp)
    refine ⟨t, numeral 10 i.toInt.toNat, ?_, ?_⟩
    · rw [if_neg hneg, toNat_of_nonneg hneg]
      exact (congrArg (Option.bind · _) hrun).trans (by rw [Option.bind_some, hputs]; rfl)
    · rw [IsDecimal, if_neg hge]
      exact isNumeral_numeral (.inl rfl) _

/-- **`puthex`** prints `0x` and the numeral. -/
theorem puthex_spec (i : UInt64) (tbuf : Buffer) :
    ∃ t s, puthex i tbuf = some (t, s) ∧ IsHexadecimal i.toNat s := by
  have hmax := i.toNat_lt
  obtain ⟨str, hput, hstr⟩ := @put_spec 0 (.replicate 32 0) 0x30 (by decide)
  obtain ⟨str', hput', hstr'⟩ := @put_spec 1 str 0x78 (by decide)
  obtain ⟨t, s, hrun, hputs⟩ := @itoa_putsArg 16 i.toNat 16 [0x30, 0x78] tbuf str' (by decide)
    (by decide) (by decide) (by omega) (by decide)
    (fun j hj => by
      rw [hstr', hstr]
      match j, hj with
      | 0, _ => rfl
      | 1, _ => rfl) (by decide)
  refine ⟨t, 0x30 :: 0x78 :: numeral 16 i.toNat, ?_, _, rfl, isNumeral_numeral (.inr rfl) _⟩
  unfold puthex uitoaS
  rw [hput, Option.bind_some, hput', Option.bind_some, if_neg (by decide)]
  exact (congrArg (Option.bind · _) hrun).trans (by rw [Option.bind_some, hputs]; rfl)

/-- **Printed numbers read back**: `putint` and `puthex` stay inside their buffers and give `puts` the
numeral of the number, without leading zeros. -/
theorem numbers_printed (tbuf : Buffer) :
    (∀ i : Int64, ∃ t s, putint i tbuf = some (t, s) ∧ IsDecimal i.toInt s) ∧
      ∀ i : UInt64, ∃ t s, puthex i tbuf = some (t, s) ∧ IsHexadecimal i.toNat s :=
  ⟨fun i => putint_spec i tbuf, fun i => puthex_spec i tbuf⟩

/-- The most negative number. -/
example : (putint Int64.minValue (.replicate 32 0)).map Prod.snd = some
    [0x2D, 0x39, 0x32, 0x32, 0x33, 0x33, 0x37, 0x32, 0x30, 0x33, 0x36, 0x38, 0x35, 0x34, 0x37, 0x37,
      0x35, 0x38, 0x30, 0x38] := by decide

end Monitor
