import Jaos.Lib.Fields

/-!
# Descriptor tables (`kernel/gdt.c`, `kernel/idt.c`)

`gdt_set_gate`, `gdt_set_ss_gate` and `idt_set_gate` cut addresses, limits and flags into the fields of
the entries of the two tables. The entries are packed structs, so an entry is the number with its fields
side by side, the first one lowest, and the descriptor of a system segment has two entries. The
processor's layout (`segmentBase`, .., `gateIst`) finds in them what went in (`descriptors_decode`).
-/

namespace Descriptors

open Lib

/-! ## The tables -/

/-- `gdt_entry_struct`. -/
structure GdtEntry where
  limitLow : BitVec 16
  baseLow : BitVec 16
  baseMiddle : BitVec 8
  access : BitVec 8
  granularity : BitVec 8
  baseHigh : BitVec 8

/-- `idt_descriptor`. -/
structure IdtDescriptor where
  baseLow : BitVec 16
  selector : BitVec 16
  ist : BitVec 8
  typeAttr : BitVec 8
  baseMiddle : BitVec 16
  baseHigh : BitVec 32
  zero : BitVec 32

/-- `GDT_ENTRY_NR`. -/
abbrev gdtEntryNr : Nat := 32

/-- `IDT_ENTRIES`. -/
abbrev idtEntries : Nat := 256

abbrev Gdt := Vector GdtEntry gdtEntryNr

abbrev Idt := Vector IdtDescriptor idtEntries

/-! ## The code -/

/-- `base_low`, `base_middle` and `base_high` of a segment. -/
def setBase {n : Nat} (base : BitVec n) (e : GdtEntry) : GdtEntry :=
  let e := { e with baseLow := (base &&& 0xFFFF).setWidth 16 }
  let e := { e with baseMiddle := (base.sshiftRight 16 &&& 0xFF).setWidth 8 }
  { e with baseHigh := (base.sshiftRight 24 &&& 0xFF).setWidth 8 }

/-- The limit, the granularity and the access byte. The bytes are computed with `int`. -/
def setLimit (limit : BitVec 32) (access granularity : BitVec 8) (e : GdtEntry) : GdtEntry :=
  let e := { e with limitLow := (limit &&& 0xFFFF).setWidth 16 }
  let e := { e with granularity := (limit.sshiftRight 16 &&& 0x0F).setWidth 8 }
  let e := { e with
    granularity :=
      (e.granularity.signExtend 32 ||| (granularity.signExtend 32 &&& 0xF0)).setWidth 8 }
  { e with access }

/-- `gdt_set_gate`. -/
def gdtSetGate (num : Nat) (base limit : BitVec 32) (access granularity : BitVec 8) (gdt : Gdt) :
    Option Gdt :=
  modifyEntry num (fun e => setLimit limit access granularity (setBase base e)) gdt

/-- The second slot of `gdt_set_ss_gate`. -/
def setUpper (base : BitVec 64) (e : GdtEntry) : GdtEntry :=
  let e := { e with baseLow := (base.sshiftRight 48 &&& 0xFFFF).setWidth 16 }
  let e := { e with limitLow := (base.sshiftRight 32 &&& 0xFFFF).setWidth 16 }
  { e with baseMiddle := 0, access := 0, granularity := 0, baseHigh := 0 }

/-- `gdt_set_ss_gate`. -/
def gdtSetSsGate (num : Nat) (base : BitVec 64) (limit : BitVec 32) (access granularity : BitVec 8)
    (gdt : Gdt) : Option Gdt :=
  (modifyEntry num (setBase base) gdt).bind fun gdt =>
    (modifyEntry (num + 1) (setUpper base) gdt).bind
      (modifyEntry num (setLimit limit access granularity))

/-- `idt_set_gate`. -/
def idtSetGate (num : Nat) (base : BitVec 64) (selector : BitVec 16) (type ist : BitVec 8)
    (idt : Idt) : Option Idt :=
  modifyEntry num (fun e =>
    let e := { e with baseLow := (base &&& 0xFFFF).setWidth 16 }
    let e := { e with baseMiddle := (base.sshiftRight 16 &&& 0xFFFF).setWidth 16 }
    let e := { e with baseHigh := (base.sshiftRight 32 &&& 0xFFFFFFFF).setWidth 32 }
    let e := { e with selector, typeAttr := type }
    { e with ist := (ist.signExtend 32 &&& 0x07#32).setWidth 8 }) idt

/-! ## The processor's layout -/

/-- The eight bytes of an entry. -/
def GdtEntry.bits (e : GdtEntry) : BitVec 64 :=
  e.baseHigh ++ e.granularity ++ e.access ++ e.baseMiddle ++ e.baseLow ++ e.limitLow

/-- The sixteen bytes of a gate. -/
def IdtDescriptor.bits (e : IdtDescriptor) : BitVec 128 :=
  e.zero ++ e.baseHigh ++ e.baseMiddle ++ e.typeAttr ++ e.ist ++ e.selector ++ e.baseLow

/-- Two entries as the descriptor of a system segment. -/
def systemBits (first second : GdtEntry) : BitVec 128 := second.bits ++ first.bits

section
variable {n : Nat} (d : BitVec n)

def segmentBase : BitVec 32 := d.extractLsb' 56 8 ++ d.extractLsb' 32 8 ++ d.extractLsb' 16 16
def segmentLimit : BitVec 20 := d.extractLsb' 48 4 ++ d.extractLsb' 0 16
def segmentAccess : BitVec 8 := d.extractLsb' 40 8
def segmentFlags : BitVec 4 := d.extractLsb' 52 4
def systemBase : BitVec 64 := d.extractLsb' 64 32 ++ segmentBase d
def gateOffset : BitVec 64 := d.extractLsb' 64 32 ++ d.extractLsb' 48 16 ++ d.extractLsb' 0 16
def gateSelector : BitVec 16 := d.extractLsb' 16 16
def gateType : BitVec 8 := d.extractLsb' 40 8
def gateIst : BitVec 3 := d.extractLsb' 32 3

end

/-- The descriptor holds this limit, access byte and flags. -/
structure HasLimit {n : Nat} (d : BitVec n) (limit : BitVec 32) (access granularity : BitVec 8) :
    Prop where
  limit : segmentLimit d = limit.extractLsb' 0 20
  access : segmentAccess d = access
  flags : segmentFlags d = granularity.extractLsb' 4 4

/-! ## Reading entries -/

section
variable {e first second : GdtEntry} {g : IdtDescriptor}

theorem bits_baseLow : e.bits.extractLsb' 16 16 = e.baseLow := by
  rw [GdtEntry.bits, high (by decide), low (by decide)]
  exact BitVec.extractLsb'_eq_self

theorem bits_limitLow : e.bits.extractLsb' 0 16 = e.limitLow := by
  rw [GdtEntry.bits, low (by decide)]
  exact BitVec.extractLsb'_eq_self

/-- The base of an entry, where the processor looks for it. -/
theorem segmentBase_bits : segmentBase e.bits = e.baseHigh ++ e.baseMiddle ++ e.baseLow := by
  have hhigh : e.bits.extractLsb' 56 8 = e.baseHigh := by
    rw [GdtEntry.bits, high (by decide), high (by decide), high (by decide), high (by decide),
      high (by decide)]
    exact BitVec.extractLsb'_eq_self
  have hmiddle : e.bits.extractLsb' 32 8 = e.baseMiddle := by
    rw [GdtEntry.bits, high (by decide), high (by decide), low (by decide)]
    exact BitVec.extractLsb'_eq_self
  rw [segmentBase, hhigh, hmiddle, bits_baseLow]

theorem segmentLimit_bits : segmentLimit e.bits = e.granularity.extractLsb' 0 4 ++ e.limitLow := by
  have hhigh : e.bits.extractLsb' 48 4 = e.granularity.extractLsb' 0 4 := by
    rw [GdtEntry.bits, high (by decide), high (by decide), high (by decide), high (by decide),
      low (by decide)]
  rw [segmentLimit, hhigh, bits_limitLow]

theorem segmentAccess_bits : segmentAccess e.bits = e.access := by
  rw [segmentAccess, GdtEntry.bits, high (by decide), high (by decide), high (by decide), low (by decide)]
  exact BitVec.extractLsb'_eq_self

theorem segmentFlags_bits : segmentFlags e.bits = e.granularity.extractLsb' 4 4 := by
  rw [segmentFlags, GdtEntry.bits, high (by decide), high (by decide), high (by decide),
    high (by decide), low (by decide)]

/-- The low half of a system descriptor is its first entry. -/
theorem systemBits_low {i j : Nat} (h : i + j ≤ 64) :
    (systemBits first second).extractLsb' i j = first.bits.extractLsb' i j := low h

/-- The upper half of a system descriptor starts with the two low fields of its second entry. -/
theorem systemBits_high : (systemBits first second).extractLsb' 64 32 =
    second.baseLow ++ second.limitLow := by
  have hjoin : second.bits.extractLsb' 16 16 ++ second.bits.extractLsb' 0 16 =
      second.bits.extractLsb' 0 32 := join rfl
  rw [systemBits, high (by decide), ← hjoin, bits_baseLow, bits_limitLow]

theorem systemBase_bits : systemBase (systemBits first second) =
    second.baseLow ++ second.limitLow ++ segmentBase first.bits := by
  rw [systemBase, systemBits_high, segmentBase, segmentBase, systemBits_low (by decide),
    systemBits_low (by decide), systemBits_low (by decide)]

theorem HasLimit.system {limit : BitVec 32} {access granularity : BitVec 8}
    (h : HasLimit first.bits limit access granularity) :
    HasLimit (systemBits first second) limit access granularity := by
  obtain ⟨hlimit, haccess, hflags⟩ := h
  refine ⟨?_, ?_, ?_⟩
  · rw [segmentLimit, systemBits_low (by decide), systemBits_low (by decide)]
    exact hlimit
  · rw [segmentAccess, systemBits_low (by decide)]
    exact haccess
  · rw [segmentFlags, systemBits_low (by decide)]
    exact hflags

/-- The fields of a gate, where the processor looks for them. -/
theorem gateOffset_bits : gateOffset g.bits = g.baseHigh ++ g.baseMiddle ++ g.baseLow := by
  have hhigh : g.bits.extractLsb' 64 32 = g.baseHigh := by
    rw [IdtDescriptor.bits, high (by decide), high (by decide), high (by decide), high (by decide),
      high (by decide), low (by decide)]
    exact BitVec.extractLsb'_eq_self
  have hmiddle : g.bits.extractLsb' 48 16 = g.baseMiddle := by
    rw [IdtDescriptor.bits, high (by decide), high (by decide), high (by decide), high (by decide),
      low (by decide)]
    exact BitVec.extractLsb'_eq_self
  have hlow : g.bits.extractLsb' 0 16 = g.baseLow := by
    rw [IdtDescriptor.bits, low (by decide)]
    exact BitVec.extractLsb'_eq_self
  rw [gateOffset, hhigh, hmiddle, hlow]

theorem gateSelector_bits : gateSelector g.bits = g.selector := by
  rw [gateSelector, IdtDescriptor.bits, high (by decide), low (by decide)]
  exact BitVec.extractLsb'_eq_self

theorem gateType_bits : gateType g.bits = g.typeAttr := by
  rw [gateType, IdtDescriptor.bits, high (by decide), high (by decide), high (by decide),
    low (by decide)]
  exact BitVec.extractLsb'_eq_self

theorem gateIst_bits : gateIst g.bits = g.ist.extractLsb' 0 3 := by
  rw [gateIst, IdtDescriptor.bits, high (by decide), high (by decide), low (by decide)]

end

/-! ## Writing entries -/

section
variable {e : GdtEntry} {limit : BitVec 32} {access granularity : BitVec 8}

/-- `setBase` stores the low 32 bits of the base. -/
theorem setBase_base {n : Nat} {base : BitVec n} (h : 32 ≤ n) :
    segmentBase (setBase base e).bits = base.extractLsb' 0 32 := by
  have hlow : (setBase base e).baseLow = base.extractLsb' 0 16 := field_zero (by omega)
  have hmiddle : (setBase base e).baseMiddle = base.extractLsb' 16 8 := field_eq (by omega)
  have hhigh : (setBase base e).baseHigh = base.extractLsb' 24 8 := field_eq (by omega)
  rw [segmentBase_bits, hlow, hmiddle, hhigh, join (i := 16) (k := 8) rfl, join (i := 0) (k := 16) rfl]

/-- `setLimit` leaves the base. -/
theorem setLimit_base : segmentBase (setLimit limit access granularity e).bits = segmentBase e.bits := by
  rw [segmentBase_bits, segmentBase_bits]
  rfl

theorem setLimit_hasLimit :
    HasLimit (setLimit limit access granularity e).bits limit access granularity := by
  have hlow : (setLimit limit access granularity e).limitLow = limit.extractLsb' 0 16 :=
    field_zero (n := 32) (w := 16) (by omega)
  have hnibble : (limit.sshiftRight 16 &&& 0x0F).setWidth 8 = (limit.extractLsb' 16 4).setWidth 8 :=
    field_wide (n := 32) (k := 16) (w := 4) (v := 8) (by omega)
  have hbyte := or_highNibble (x := (limit.sshiftRight 16 &&& 0x0F).setWidth 8) (y := granularity)
    (by rw [hnibble, nibble_high])
  refine ⟨?_, segmentAccess_bits, ?_⟩
  · have hhigh : (setLimit limit access granularity e).granularity.extractLsb' 0 4 =
        limit.extractLsb' 16 4 := by
      rw [← nibble_low (limit.extractLsb' 16 4), ← hnibble]
      exact hbyte.1
    rw [segmentLimit_bits, hhigh, hlow, join (i := 0) (k := 16) rfl]
  · rw [segmentFlags_bits]
    exact hbyte.2

/-- `setUpper` stores the upper 32 bits of the base. -/
theorem setUpper_base {base : BitVec 64} :
    (setUpper base e).baseLow ++ (setUpper base e).limitLow = base.extractLsb' 32 32 := by
  have hlow : (setUpper base e).limitLow = base.extractLsb' 32 16 :=
    field_eq (n := 64) (k := 32) (w := 16) (by omega)
  have hhigh : (setUpper base e).baseLow = base.extractLsb' 48 16 :=
    field_eq (n := 64) (k := 48) (w := 16) (by omega)
  rw [hhigh, hlow, join (i := 32) (k := 16) rfl]

end

/-! ## The two tables -/

section
variable {num : Nat} {gdt gdt' : Gdt} {idt idt' : Idt} {limit : BitVec 32}
  {access granularity : BitVec 8}

/-- `gdt_set_gate` writes one entry. -/
theorem gdtSetGate_spec {base : BitVec 32} (h : num < gdtEntryNr) :
    ∃ gdt' e, gdtSetGate num base limit access granularity gdt = some gdt' ∧ gdt'[num]? = some e ∧
      segmentBase e.bits = base ∧ HasLimit e.bits limit access granularity ∧
      ∀ i ≠ num, gdt'[i]? = gdt[i]? := by
  refine ⟨_, _, modifyEntry_eq h, Vector.getElem?_set_self h, ?_, setLimit_hasLimit, ?_⟩
  · rw [setLimit_base, setBase_base (by decide)]
    exact BitVec.extractLsb'_eq_self
  · intro i hi
    exact Vector.getElem?_set_ne h (Ne.symm hi)

/-- `gdt_set_ss_gate` writes two entries. -/
theorem gdtSetSsGate_spec {base : BitVec 64} (h : num + 1 < gdtEntryNr) :
    ∃ gdt' first second, gdtSetSsGate num base limit access granularity gdt = some gdt' ∧
      gdt'[num]? = some first ∧ gdt'[num + 1]? = some second ∧
      systemBase (systemBits first second) = base ∧
      HasLimit (systemBits first second) limit access granularity ∧
      ∀ i, i ≠ num → i ≠ num + 1 → gdt'[i]? = gdt[i]? := by
  have hnum : num < gdtEntryNr := by omega
  refine ⟨_, _, setUpper base gdt[num + 1], (congrArg (Option.bind · _) (modifyEntry_eq hnum)).trans
    ((congrArg (Option.bind · _) (modifyEntry_eq h)).trans (modifyEntry_eq hnum)),
    Vector.getElem?_set_self hnum, ?_, ?_, setLimit_hasLimit.system, ?_⟩
  · simp
  · have hfirst : ∀ e, segmentBase (setLimit limit access granularity (setBase base e)).bits =
        base.extractLsb' 0 32 := by
      intro e
      rw [setLimit_base, setBase_base (by decide)]
    rw [systemBase_bits, setUpper_base]
    simp only [Vector.getElem_set_self, Vector.getElem_set_ne, hfirst, ne_eq, Nat.succ_ne_self,
      not_false_eq_true]
    rw [join (i := 0) (k := 32) rfl]
    exact BitVec.extractLsb'_eq_self
  · intro i hi hi'
    simp [Ne.symm hi, Ne.symm hi']

theorem idtSetGate_spec {base : BitVec 64} {selector : BitVec 16} {type ist : BitVec 8}
    (h : num < idtEntries) :
    ∃ idt' e, idtSetGate num base selector type ist idt = some idt' ∧ idt'[num]? = some e ∧
      gateOffset e.bits = base ∧ gateSelector e.bits = selector ∧ gateType e.bits = type ∧
      gateIst e.bits = ist.extractLsb' 0 3 ∧ ∀ i ≠ num, idt'[i]? = idt[i]? := by
  refine ⟨_, _, modifyEntry_eq h, Vector.getElem?_set_self h, ?_, gateSelector_bits, gateType_bits, ?_, ?_⟩
  · have hlow : (base &&& 0xFFFF).setWidth 16 = base.extractLsb' 0 16 :=
      field_zero (n := 64) (w := 16) (by omega)
    have hmiddle : (base.sshiftRight 16 &&& 0xFFFF).setWidth 16 = base.extractLsb' 16 16 :=
      field_eq (n := 64) (k := 16) (w := 16) (by omega)
    have hhigh : (base.sshiftRight 32 &&& 0xFFFFFFFF).setWidth 32 = base.extractLsb' 32 32 :=
      field_eq (n := 64) (k := 32) (w := 32) (by omega)
    rw [gateOffset_bits]
    simp only [hlow, hmiddle, hhigh]
    rw [join (i := 16) (k := 16) rfl, join (i := 0) (k := 16) rfl]
    exact BitVec.extractLsb'_eq_self
  · rw [gateIst_bits]
    exact and_seven
  · intro i hi
    exact Vector.getElem?_set_ne h (Ne.symm hi)

/-- **What the processor decodes.** For every table and all arguments, the entry that `gdt_set_gate`
writes, the two that `gdt_set_ss_gate` writes and the one that `idt_set_gate` writes give back the
arguments, and every other entry stays as it was. -/
theorem descriptors_decode :
    (∀ (gdt : Gdt) (num : Nat) (base limit : BitVec 32) (access granularity : BitVec 8), num < gdtEntryNr →
      ∃ gdt' e, gdtSetGate num base limit access granularity gdt = some gdt' ∧ gdt'[num]? = some e ∧
        segmentBase e.bits = base ∧ HasLimit e.bits limit access granularity ∧
        ∀ i ≠ num, gdt'[i]? = gdt[i]?) ∧
    (∀ (gdt : Gdt) (num : Nat) (base : BitVec 64) (limit : BitVec 32) (access granularity : BitVec 8),
      num + 1 < gdtEntryNr →
      ∃ gdt' first second, gdtSetSsGate num base limit access granularity gdt = some gdt' ∧
        gdt'[num]? = some first ∧ gdt'[num + 1]? = some second ∧
        systemBase (systemBits first second) = base ∧
        HasLimit (systemBits first second) limit access granularity ∧
        ∀ i, i ≠ num → i ≠ num + 1 → gdt'[i]? = gdt[i]?) ∧
    (∀ (idt : Idt) (num : Nat) (base : BitVec 64) (selector : BitVec 16) (type ist : BitVec 8),
      num < idtEntries →
      ∃ idt' e, idtSetGate num base selector type ist idt = some idt' ∧ idt'[num]? = some e ∧
        gateOffset e.bits = base ∧ gateSelector e.bits = selector ∧ gateType e.bits = type ∧
        gateIst e.bits = ist.extractLsb' 0 3 ∧ ∀ i ≠ num, idt'[i]? = idt[i]?) := by
  refine ⟨?_, ?_, ?_⟩
  · intro gdt num base limit access granularity h
    exact gdtSetGate_spec h
  · intro gdt num base limit access granularity h
    exact gdtSetSsGate_spec h
  · intro idt num base selector type ist h
    exact idtSetGate_spec h

/-- The user code segment, a task state segment in the upper half and the system call gate. -/
theorem descriptors_decode_install :
    let gdt : Gdt := Vector.replicate gdtEntryNr ⟨0, 0, 0, 0, 0, 0⟩
    let idt : Idt := Vector.replicate idtEntries ⟨0, 0, 0, 0, 0, 0, 0⟩
    (∃ gdt' e, gdtSetGate 3 0 0 0xF8 0x20 gdt = some gdt' ∧ gdt'[3]? = some e ∧
      segmentAccess e.bits = 0xF8) ∧
    (∃ gdt' first second, gdtSetSsGate 5 0xFFFF8000C0123456 0x67 0xE9 0 gdt = some gdt' ∧
      gdt'[5]? = some first ∧ gdt'[6]? = some second ∧
      systemBase (systemBits first second) = 0xFFFF8000C0123456) ∧
    (∃ idt' e, idtSetGate 128 0xFFFF8000C0100000 0x08 0xEE 0 idt = some idt' ∧ idt'[128]? = some e ∧
      gateOffset e.bits = 0xFFFF8000C0100000) := by
  intro gdt idt
  obtain ⟨hgate, hss, hidt⟩ := descriptors_decode
  obtain ⟨gdt₁, e, hset, he, -, hlimit, -⟩ := hgate gdt 3 0 0 0xF8 0x20 (by decide)
  obtain ⟨gdt₂, first, second, hset₂, hfirst, hsecond, hbase₂, -, -⟩ :=
    hss gdt 5 0xFFFF8000C0123456 0x67 0xE9 0 (by decide)
  obtain ⟨idt₁, g, hset₃, hg, hoffset, -, -, -, -⟩ :=
    hidt idt 128 0xFFFF8000C0100000 0x08 0xEE 0 (by decide)
  exact ⟨⟨gdt₁, e, hset, he, hlimit.access⟩, ⟨gdt₂, first, second, hset₂, hfirst, hsecond, hbase₂⟩,
    ⟨idt₁, g, hset₃, hg, hoffset⟩⟩

end

end Descriptors
