import Jaos.Elf.Segments
import Jaos.Heap.Proof.Run

/-!
# The loaded image

`LoadsProgram buffer h m`: whatever the free frames held before, if `load_executable` returns an entry
point, it is the one of the file, and memory holds every segment, filled up with zeros. `load_executable`
maps all pages of a segment anew and copies the bytes of the file into them; it clears nothing, and reads
the entry point from the buffer once that is freed. `Fits` says what the file must be like for this to
be enough: every byte of a segment comes from the file, no later segment maps its page again, and the
freed buffer still has the entry point. This is exact for the contents of free frames that put no old entry
of a new table in the way (`loads_program`). The converse is shown with two such contents, all free frames
full of one byte or of another.
-/

namespace Program

open Lib Paging Kheap Elf64 OrderedArray

/-! ## The image in memory -/

/-- The buffer is a live block of a heap in order, with room for the header of the file. -/
structure Buffer (buffer : Nat) (h : Heap) : Prop where
  live : ∃ live size, Kheap.Inv (⟨h, (), live⟩ : Kheap.Sys Unit) ∧ ⟨buffer, size⟩ ∈ live ∧ 64 ≤ size
  outside : Kheap.Outside h

/-- Other contents of the frames that are free. -/
def Recycled (m : Machine) (phys : Phys) : Prop :=
  ∀ f, m.frames.memoryMap.bit f = true → phys f = m.phys f

/-- The processor finds every segment in memory, filled up with zeros, and `r` is the entry point. -/
structure Holds (file : Mem) (r : Nat) (m : Machine) : Prop where
  bytes : ∀ i v, Covers file i v → hardwareByte v m = some (wanted file i v)
  entry : r = eEntry file

/-- **The loaded image is the program** (module doc). -/
def LoadsProgram (buffer : Nat) (h : Heap) (m : Machine) : Prop :=
  ∀ phys, Recycled m phys → ∀ r h' m', loadExecutable buffer h { m with phys } = some (r, h', m') →
    r ≠ 0 → Holds (image buffer h) r m'

/-- No table linked on the way from `m` to `m'` has an old entry in the way of the segments. -/
def Unspoiled (file : Mem) (m m' : Machine) : Prop := ∀ e, Since m.log m' e → ClearFor file e

/-- The same for the contents of free frames that put no old entry in the way. -/
def LoadsUnspoiled (buffer : Nat) (h : Heap) (m : Machine) : Prop :=
  ∀ phys, Recycled m phys → ∀ r h' m', loadExecutable buffer h { m with phys } = some (r, h', m') →
    r ≠ 0 → Unspoiled (image buffer h) m m' → Holds (image buffer h) r m'

/-- `load_executable` returns an entry point for one of them. -/
def Returns (buffer : Nat) (h : Heap) (m : Machine) : Prop :=
  ∃ phys, Recycled m phys ∧ ∃ r h' m', loadExecutable buffer h { m with phys } = some (r, h', m') ∧
    r ≠ 0 ∧ Unspoiled (image buffer h) m m'

/-- Nothing goes wrong on the way: the tables that are there hold no old entries, the pages behind the
segments are not the kernel's, and `kfree(buffer)` keeps the heap in order. -/
structure Prepared (buffer : Nat) (h : Heap) (m : Machine) : Prop where
  history : ∀ e ∈ m.log, e.Ok ∧ e.Plain
  pages : PagesBelow (image buffer h)
  heap : FreeOk h buffer

/-- The condition on the file: a byte of a segment comes from the file, and no later segment maps its
page; or no segment maps its page, and it is there already. -/
structure Fits (buffer : Nat) (h : Heap) (m : Machine) : Prop where
  bytes : ∀ i v, Covers (image buffer h) i v →
    (Copies (image buffer h) i v ∧ ∀ j, i < j → ¬ Asks (image buffer h) j (v / 4096)) ∨
      ((∀ j, ¬ Asks (image buffer h) j (v / 4096)) ∧
        loadByte v m = some (wanted (image buffer h) i v))
  entry : (leftMem h buffer).load (buffer + 0x18) 8 = eEntry (image buffer h)

theorem LoadsProgram.unspoiled {buffer : Nat} {h : Heap} {m : Machine} (hl : LoadsProgram buffer h m) :
    LoadsUnspoiled buffer h m := fun phys hphys r h' m' hrun hr _ => hl phys hphys r h' m' hrun hr

/-! ## The whole call -/

section
variable {buffer size r : Nat} {h h' : Heap} {s : Shape} {m m' : Machine}

theorem freeContract_machine (header footer t : Nat) (h : Heap) (m : Machine) :
    (freeContract kernelPages header footer t h m).2 = m := by
  have hcon : ∀ n h, (contract kernelPages n h m).2.2 = m := fun _ _ => rfl
  unfold freeContract
  split
  · dsimp only
    split
    · exact hcon (sub64 header h.startAddress) h
    · exact hcon (sub64 header h.startAddress) h
  · rfl

theorem freeMerge_machine (header footer : Nat) (h : Heap) (m : Machine) :
    (freeMerge kernelPages header footer h m).2 = m := by
  unfold freeMerge
  dsimp only
  exact freeContract_machine _ _ _ _ _

/-- `free` does not touch the page tables: `free_kernel_page` does nothing. -/
theorem free_machine (p : Nat) (h : Heap) (m : Machine) : (free kernelPages p h m).2 = m := by
  unfold free
  split
  · rfl
  · dsimp only
    exact freeMerge_machine _ _ _ _

/-- The entry point depends on the header only. -/
theorem eEntry_image {mem : Mem} (hlt : buffer + 64 < 2 ^ 64)
    (hsame : ∀ x, buffer ≤ x → x < buffer + 64 → h.mem x = mem x) :
    eEntry (image buffer h) = mem.load (buffer + 0x18) 8 := by
  unfold eEntry
  refine Mem.load_shift fun k hk => ?_
  unfold image
  have hx : add64 buffer (0x18 + k) = buffer + 0x18 + k := by
    rw [add64_of_lt (by omega)]
    omega
  rw [hx]
  exact hsame _ (by omega) (by omega)

/-- The entry point that `load_executable` finds in the freed buffer. -/
theorem Buffer.entry (b : Buffer buffer h) (hok : FreeOk h buffer) (m : Machine) :
    eEntry (image buffer (free kernelPages buffer h m).1) =
      (leftMem h buffer).load (buffer + 0x18) 8 := by
  obtain ⟨live, size, ⟨cs, w, o⟩, hmem, hsize⟩ := b.live
  obtain ⟨c, hc, hused, hp, hroom⟩ := o.chunk _ hmem
  obtain ⟨l, R, rfl⟩ := List.append_of_mem hc
  dsimp only at w hp hroom
  have hlt := w.chunk_lt hc
  have hfin : c.fin = c.addr + c.size := rfl
  subst hp
  obtain ⟨-, -, -, -, hinside⟩ :=
    w.placed kernelPages m hused (b.outside _ (.inr (Nat.le_refl _))) hok
  exact eEntry_image (by omega) fun x h1 h2 => hinside x h1 (by omega)

theorem loadExecutable_cases (hrun : loadExecutable buffer h m = some (r, h', m')) (hr : r ≠ 0) :
    loadSegments (image buffer h) (ePhnum (image buffer h)) 0 m = some (true, m') ∧
      r = eEntry (image buffer (free kernelPages buffer h m').1) := by
  have hzero : ∀ {h1 : Heap} {m1 : Machine}, (0, h1, m1) = (r, h', m') → False := fun he =>
    hr (congrArg Prod.fst he).symm
  unfold loadExecutable at hrun
  by_cases hcheck : elfCheck (image buffer h) = 0
  · rw [if_neg (fun hne => hne hcheck)] at hrun
    obtain ⟨⟨ok, m1⟩, hseg, he⟩ := Option.map_eq_some_iff.1 hrun
    cases ok with
    | false => exact (hzero he).elim
    | true =>
      simp only [if_true, Prod.mk.injEq, free_machine] at he
      obtain ⟨rfl, -, rfl⟩ := he
      exact ⟨hseg, rfl⟩
  · rw [if_pos hcheck] at hrun
    exact (hzero (Option.some.inj hrun)).elim

/-- The run of `load_executable` with the file in the buffer. -/
theorem loadExecutable_segments (hcheck : elfCheck (image buffer h) = 0)
    (hseg : loadSegments (image buffer h) (ePhnum (image buffer h)) 0 m = some (true, m')) :
    loadExecutable buffer h m = some (eEntry (image buffer (free kernelPages buffer h m').1),
      (free kernelPages buffer h m').1, m') := by
  unfold loadExecutable
  dsimp only
  rw [if_neg (fun hne => hne hcheck), hseg, Option.map_some]
  simp only [if_true, free_machine]

/-- Free frames with other contents: no table changes. -/
theorem Recycled.tables {phys : Phys} (hphys : Recycled m phys) (U : UserSpace s m) (f : Nat) (p : Place)
    (hp : s.place f = some p) : phys f = m.phys f := hphys f (U.good.forest.marked f p hp)

/-- And no page. -/
theorem Recycled.loadByte {phys : Phys} (hphys : Recycled m phys) (U : UserSpace s m) {v : Nat}
    (hv : User v) : loadByte v { m with phys } = loadByte v m := by
  have htr : translate phys m.cr3 v = translate m.phys m.cr3 v := U.translate_scribble (hphys.tables U) hv
  cases hx : translate m.phys m.cr3 v with
  | none => rw [loadByte_none hx, loadByte_none (htr.trans hx)]
  | some n =>
    rw [loadByte_eq hx, loadByte_eq (htr.trans hx)]
    dsimp only
    rw [hphys n (U.page hv hx).1]

/-- The loop on all headers. -/
theorem Loading.all {file : Mem} (I : Image file size) (U : UserSpace s m) (hlow : PagesBelow file)
    (h : loadSegments file (ePhnum file) 0 m = some (true, m')) (hlog : ∀ e ∈ m'.log, e.Ok) :
    ∃ s', Loading file 0 (ePhnum file) s m s' m' := by
  have L := Loading.segments I U hlow (by omega) h hlog
  rwa [Nat.zero_add] at L

/-! ## The load without old entries -/

section
variable {E : Prop} {c : Entry} {file : Mem} {phys phys' : Phys}

theorem Unspoiled.ne (h : Unspoiled file m m') (a : Addr) (f : Nat) (old : Nat → Entry)
    (he : Since m.log m' (.table a f old)) : f ≠ 0 := (h _ he).1

/-- **The same load** from other contents of the free frames, those that become tables filled with `c`. -/
theorem Unspoiled.veil (hclear : Unspoiled file m m') (I : Image file size) (U : UserSpace s m)
    (hok : ∀ e ∈ m.log, e.Ok) (hlow : PagesBelow file) (hc : c.present = false)
    (hphys : Recycled m phys) (hphys' : Recycled m phys')
    (hseg : loadSegments file (ePhnum file) 0 { m with phys } = some (true, m'))
    (hnew : ∀ f, NewIn m.log m' f → phys' f = fun _ => c)
    (hdata : E → ∀ f, ¬ NewIn m.log m' f → phys' f = phys f) :
    ∃ s' g', loadSegments file (ePhnum file) 0 { m with phys := phys' } = some (true, g') ∧
      Veil E c m.log m' (fun q => ∃ j, Asks file j q) s' m' g' := by
  have hbefore : Extends { m with phys } m' := extends_loadSegments hseg
  have hused : ∀ f, m.frames.memoryMap.bit f = true → phys' f = phys f := fun f hf =>
    (hphys' f hf).trans (hphys f hf).symm
  have V := (U.scribble (hphys.tables U)).veil (E := E) hok hbefore hclear.ne hused hnew hdata
  have V0 : Veil E c m.log m' (fun q => ∃ j, j < 0 ∧ Asks file j q) s { m with phys }
      { m with phys := phys' } :=
    { V with filled := fun v hv ⟨j, hj, _⟩ => absurd hj (Nat.not_lt_zero j) }
  obtain ⟨s', g', hg, V'⟩ := Veil.segments V0 hc I hlow (by omega) hclear hseg (.refl m') hclear.ne
  refine ⟨s', g', hg, { V' with filled := fun v hv ⟨j, hask⟩ => V'.filled v hv ⟨j, ?_, hask⟩ }⟩
  rw [Nat.zero_add]
  exact hask.1.1

/-- There are such contents. -/
theorem Recycled.cleared (c : Entry) (hbefore : Extends { m with phys } m')
    (hne : ∀ a f old, Since m.log m' (.table a f old) → f ≠ 0) (hphys : Recycled m phys) :
    ∃ phys', Recycled m phys' ∧ (∀ f, NewIn m.log m' f → phys' f = fun _ => c) ∧
      ∀ f, ¬ NewIn m.log m' f → phys' f = phys f := by
  obtain ⟨phys', hused, hnew, hdata⟩ := exists_cleared (m := { m with phys }) c hbefore hne
  exact ⟨phys', fun f hf => (hused f hf).trans (hphys f hf), hnew, hdata⟩

/-- Tables full of `c` have nothing in the way. -/
theorem Veil.unspoiled {L : List Event} {M g : Machine} {Q : Nat → Prop} (V : Veil E c L M Q s m' g)
    (hL : m.log = L) (hc : c.present = false) (hplain : c.Plain) : Unspoiled file m g := by
  subst hL
  intro e he
  cases e with
  | table a f old =>
    obtain ⟨hf, rfl⟩ := V.news a f old he
    exact ⟨hf, fun i v _ => ⟨fun _ => ⟨hc, hplain.goes 2⟩, fun _ => ⟨hc, hplain.goes 1⟩,
      fun _ => ⟨hplain.goes 0, fun _ => hc⟩⟩⟩
  | _ => exact ⟨trivial, fun _ _ _ => trivial⟩

end

/-! ## The condition -/

/-- **The condition is enough.** -/
theorem Fits.loads (I : Image (image buffer h) size) (U : UserSpace s m) (b : Buffer buffer h)
    (p : Prepared buffer h m) (fits : Fits buffer h m) : LoadsUnspoiled buffer h m := by
  intro phys hphys r h' m' hrun hr hclear
  obtain ⟨hseg, rfl⟩ := loadExecutable_cases hrun hr
  have hok : ∀ e ∈ m.log, e.Ok := fun e he => (p.history e he).1
  have hplain : ∀ e ∈ m.log, e.Plain := fun e he => (p.history e he).2
  obtain ⟨phys', hphys', hnew, hdata⟩ :=
    hphys.cleared .zero (extends_loadSegments hseg) hclear.ne
  obtain ⟨s', g', hg, V⟩ :=
    hclear.veil (E := True) (c := .zero) I U hok p.pages rfl hphys hphys' hseg hnew fun _ => hdata
  obtain ⟨s1, L⟩ := Loading.all I (U.scribble (hphys'.tables U)) p.pages hg V.ok
  refine ⟨fun i v hcover => ?_, ?_⟩
  · have hv := I.low_byte hcover
    have hto : ClearTo m.log m' (∃ j, j ≤ i ∧ Asks (image buffer h) j (Addr.frame v)) v :=
      fun e he => (hclear e he).2 i v ⟨hv, .inl hcover⟩
    have hq : (∃ j, Asks (image buffer h) j (Addr.frame v)) ∨
        ¬ ∃ j, j ≤ i ∧ Asks (image buffer h) j (Addr.frame v) :=
      (Classical.em _).imp_right fun hno ⟨j, _, hask⟩ => hno ⟨j, hask⟩
    -- the processor finds what the load without old entries leaves
    rw [hardwareByte_eq (V.hardware trivial hplain (by decide) hto hv),
      V.loadByte trivial hto hv hq hclear.ne]
    rcases fits.bytes i v hcover with ⟨hcopy, hlast⟩ | ⟨hnone, hbyte⟩
    · rw [L.copied i v (Nat.zero_le _) hcopy.1.1 hcopy fun n h1 _ => hlast n h1, wanted, if_pos]
      exact Nat.lt_of_lt_of_le hcopy.2.2 (Nat.add_le_add_left (copyLength_le _) _)
    · by_cases hcopy : Copies (image buffer h) i v
      · rw [L.copied i v (Nat.zero_le _) hcopy.1.1 hcopy fun n _ _ => hnone n, wanted, if_pos]
        exact Nat.lt_of_lt_of_le hcopy.2.2 (Nat.add_le_add_left (copyLength_le _) _)
      · rw [L.other v hv fun n _ _ => ⟨hnone n, fun hc => ?_⟩, hphys'.loadByte U hv, hbyte]
        obtain rfl := I.apart i n v hcover (I.covers hc)
        exact hcopy hc
  · rw [b.entry p.heap, fits.entry]

/-- What a free frame is filled with. -/
def fill (b : Bool) : Entry := .ofWord (if b then 0x0202020202020202 else 0)

/-- Every free frame filled with the byte 0, or every one with the byte 2. -/
def filled (b : Bool) (m : Machine) : Phys := fun f =>
  if m.frames.memoryMap.bit f then m.phys f else fun _ => fill b

theorem recycled_filled (b : Bool) (m : Machine) : Recycled m (filled b m) := fun _ hf => if_pos hf

theorem filled_free {b : Bool} {f : Nat} (hf : m.frames.memoryMap.bit f = false) :
    filled b m f = fun _ => fill b := if_neg (by simp [hf])

theorem byte_fill {b : Bool} {j : Nat} (hj : j < 8) : (fill b).byte j = if b then 2 else 0 := by
  have hcases : j = 0 ∨ j = 1 ∨ j = 2 ∨ j = 3 ∨ j = 4 ∨ j = 5 ∨ j = 6 ∨ j = 7 := by omega
  cases b <;> rcases hcases with rfl | rfl | rfl | rfl | rfl | rfl | rfl | rfl <;> rfl

theorem fill_absent (b : Bool) : (fill b).present = false ∧ (fill b).Plain := by
  cases b <;> decide

/-- **The condition is necessary** where the load gets to its end: a byte that is not the file's would
have to be the same whatever its frame held. -/
theorem LoadsUnspoiled.fits (I : Image (image buffer h) size) (U : UserSpace s m) (b : Buffer buffer h)
    (p : Prepared buffer h m) (hl : LoadsUnspoiled buffer h m) (hret : Returns buffer h m) :
    Fits buffer h m := by
  obtain ⟨phys, hphys, r, h', m', hrun, hr, hclear⟩ := hret
  obtain ⟨hseg, rfl⟩ := loadExecutable_cases hrun hr
  have hok : ∀ e ∈ m.log, e.Ok := fun e he => (p.history e he).1
  have hbefore : Extends { m with phys } m' := extends_loadSegments hseg
  rw [b.entry p.heap] at hr
  -- the load ends with all free frames full of either byte
  have hall : ∀ b' : Bool, ∃ s1 m1, Loading (image buffer h) 0 (ePhnum (image buffer h)) s
      { m with phys := filled b' m } s1 m1 ∧
      (∀ i v, Covers (image buffer h) i v → loadByte v m1 = some (wanted (image buffer h) i v)) ∧
      (leftMem h buffer).load (buffer + 0x18) 8 = eEntry (image buffer h) := by
    intro b'
    have hphys' := recycled_filled b' m
    obtain ⟨hc, hplain⟩ := fill_absent b'
    obtain ⟨s', g', hg, V⟩ := hclear.veil (E := False) I U hok p.pages hc hphys hphys' hseg
      (fun f hf => filled_free (NewIn.free (m := { m with phys }) hbefore hclear.ne hf)) False.elim
    have hclear' : Unspoiled (image buffer h) m g' := Veil.unspoiled V rfl hc hplain
    have H := hl _ hphys' _ _ _ (loadExecutable_segments I.accepted hg) (by rwa [b.entry p.heap]) hclear'
    have hentry := H.entry
    rw [b.entry p.heap] at hentry
    obtain ⟨s1, L⟩ := Loading.all I (U.scribble (hphys'.tables U)) p.pages hg V.ok
    refine ⟨s1, g', L, fun i v hcover => ?_, hentry⟩
    have hcond : ∀ e ∈ m.log, e.Plain := fun e he => (p.history e he).2
    rw [← hardwareByte_eq (V.space.hardware (V.plain hcond hplain) (I.low_byte hcover))]
    exact H.bytes i v hcover
  obtain ⟨s0, m0, L0, hbytes0, hentry0⟩ := hall false
  refine ⟨fun i v hcover => ?_, hentry0⟩
  have hv := I.low_byte hcover
  -- a page mapped anew, and no byte copied since
  have hstale : ∀ n, Asks (image buffer h) n (v / 4096) → n < ePhnum (image buffer h) →
      (∀ n', n ≤ n' → n' < ePhnum (image buffer h) → ¬ Copies (image buffer h) n' v) → False := by
    intro n hask hn hno
    have hbyte : ∀ b' : Bool, wanted (image buffer h) i v = if b' then 2 else 0 := by
      intro b'
      obtain ⟨s1, m1, L, hbytes, -⟩ := hall b'
      obtain ⟨f, hf, hx⟩ := L.stale n v hv (Nat.zero_le _) hn hask hno
      have hx := (hbytes i v hcover).symm.trans hx
      dsimp only at hf hx
      rw [filled_free hf, byte_fill (Nat.mod_lt _ (by decide))] at hx
      exact Option.some.inj hx
    have h0 := hbyte false
    rw [hbyte true] at h0
    exact absurd h0 (by decide)
  by_cases hcopy : Copies (image buffer h) i v
  · refine .inl ⟨hcopy, fun j hj hask => hstale j hask hask.1.1 fun n h1 _ hc => ?_⟩
    obtain rfl := I.once hcopy hc
    omega
  · have hnot : ∀ n, ¬ Copies (image buffer h) n v := fun n hc => by
      obtain rfl := I.apart i n v hcover (I.covers hc)
      exact hcopy hc
    have hnone : ∀ j, ¬ Asks (image buffer h) j (v / 4096) := fun j hask =>
      hstale j hask hask.1.1 fun n _ _ => hnot n
    refine .inr ⟨hnone, ?_⟩
    rw [← hbytes0 i v hcover, L0.other v hv fun n _ _ => ⟨hnone n, hnot n⟩,
      (recycled_filled false m).loadByte U hv]

/-- **When the loaded image is the program**: for the contents of free frames that put no old entry in the
way, exactly where the file fits, or where no such load gets to its end. -/
theorem loads_program (I : Image (image buffer h) size) (U : UserSpace s m) (b : Buffer buffer h)
    (p : Prepared buffer h m) :
    LoadsUnspoiled buffer h m ↔ (Returns buffer h m → Fits buffer h m) :=
  ⟨fun hl hret => hl.fits I U b p hret, fun hfits phys hphys r h' m' hrun hr hclear =>
    (hfits ⟨phys, hphys, r, h', m', hrun, hr, hclear⟩).loads I U b p phys hphys r h' m' hrun hr hclear⟩

end

/-! ## A file with one segment -/

/-- A file of `0x2000` bytes with 16 bytes for `0x400000`. -/
def oneSegment (memsz : Nat) : Mem :=
  let m : Mem := Mem.store (fun _ => 0) 0 4 0x464C457F
  let m := (((m.store 0x10 2 2).store 0x12 2 62).store 0x14 4 1).store 0x18 8 0x400000
  let m := (m.store 0x20 8 64).store 0x38 2 1
  ((((m.store 64 4 1).store 72 8 0x100).store 80 8 0x400000).store 96 8 16).store 104 8 memsz

/-- The chunks of a heap with a buffer for it, at `0xC0019010`. -/
def bufferChunks : List Chunk :=
  [⟨0xC0019000, 0x2020, true⟩, ⟨0xC001B020, 0x14FE0, false⟩]

def bufferHeap (file : Mem) : Heap where
  mem := writeAll bufferChunks fun x =>
    if 0xC0019010 ≤ x ∧ x < 0xC001B010 then file (x - 0xC0019010) else 0
  index := ⟨fun _ => 0xC001B020, 1, 0x1000⟩
  startAddress := 0xC0019000
  endAddress := 0xC0030000
  maxAddress := 0xd0000000
  supervisor := 0
  readonly := 0
  console := []

/-- Tables for the pages from `0x400000` on, in the frames 1 to 4; the frames 5 and 6 are free and full
of old bytes. -/
def emptySpace : Machine where
  phys := fun f i =>
    if f = 1 ∧ i = 511 then .ofWord 0x1007
    else if f = 1 ∧ i = 0 then .ofWord 0x2007
    else if f = 2 ∧ i = 0 then .ofWord 0x3007
    else if f = 3 ∧ i = 2 then .ofWord 0x4007
    else if 5 ≤ f then .ofWord 0xEEEEEEEEEEEEEEEE
    else .zero
  cr3 := 1
  frames := ⟨62, 64, fun _ => ~~~(3 <<< 5)⟩
  nextBlock := 0xC0030
  log := []

/-- The places of its tables. -/
def emptyShape : Shape where
  place := fun f =>
    if f = 1 then some (.root 1)
    else if f = 2 then some ⟨3, some 1, 0⟩
    else if f = 3 then some ⟨2, some 1, 0⟩
    else if f = 4 then some ⟨1, some 1, 2⟩
    else none
  held := fun _ => False
  live := fun _ => False
  backed := False

theorem emptyShape_place {f : Nat} {p : Place} (h : emptyShape.place f = some p) :
    f = 1 ∧ p = .root 1 ∨ f = 2 ∧ p = ⟨3, some 1, 0⟩ ∨ f = 3 ∧ p = ⟨2, some 1, 0⟩ ∨
      f = 4 ∧ p = ⟨1, some 1, 2⟩ := by
  unfold emptyShape at h
  dsimp only at h
  split at h
  · exact .inl ⟨‹_›, (Option.some.inj h).symm⟩
  split at h
  · exact .inr (.inl ⟨‹_›, (Option.some.inj h).symm⟩)
  split at h
  · exact .inr (.inr (.inl ⟨‹_›, (Option.some.inj h).symm⟩))
  split at h
  · exact .inr (.inr (.inr ⟨‹_›, (Option.some.inj h).symm⟩))
  · cases h

/-- The links between the tables. -/
theorem emptySpace_next {f i n : Nat} (hf : f < 5) (h : next emptySpace.phys f i = some n) :
    f = 1 ∧ i = 511 ∧ n = 1 ∨ f = 1 ∧ i = 0 ∧ n = 2 ∨ f = 2 ∧ i = 0 ∧ n = 3 ∨
      f = 3 ∧ i = 2 ∧ n = 4 := by
  obtain ⟨hp, rfl⟩ := next_some.1 h
  unfold emptySpace at hp ⊢
  dsimp only at hp ⊢
  split at hp
  · rename_i hc
    rw [if_pos hc]
    exact .inl ⟨hc.1, hc.2, rfl⟩
  rename_i hc1
  rw [if_neg hc1]
  split at hp
  · rename_i hc
    rw [if_pos hc]
    exact .inr (.inl ⟨hc.1, hc.2, rfl⟩)
  rename_i hc2
  rw [if_neg hc2]
  split at hp
  · rename_i hc
    rw [if_pos hc]
    exact .inr (.inr (.inl ⟨hc.1, hc.2, rfl⟩))
  rename_i hc3
  rw [if_neg hc3]
  split at hp
  · rename_i hc
    rw [if_pos hc]
    exact .inr (.inr (.inr ⟨hc.1, hc.2, rfl⟩))
  rw [if_neg (by omega)] at hp
  cases hp

theorem emptySpace_forest {used : Nat → Bool} (hused : ∀ f, f < 5 → used f = true) :
    Forest emptyShape (next emptySpace.phys) used := by
  have hlow : ∀ {f p}, emptyShape.place f = some p → f < 5 := fun h => by
    rcases emptyShape_place h with h | h | h | h <;> omega
  have hnone : ∀ {f i n}, ¬ emptyShape.Maps (next emptySpace.phys) f i n := by
    rintro f i n ⟨p, hp, h1, -, -, hn⟩
    have hlink := emptySpace_next (hlow hp) hn
    rcases emptyShape_place hp with ⟨rfl, rfl⟩ | ⟨rfl, rfl⟩ | ⟨rfl, rfl⟩ | ⟨rfl, rfl⟩
    · cases h1
    · cases h1
    · cases h1
    · omega
  refine ⟨fun f p hp => ?_, fun f p hp h4 => ?_, fun f p i n hp h2 hi hs hn => ?_,
    fun f n hp hn => ?_, fun f p hp => ?_, fun f i n hm => (hnone hm).elim,
    fun f i f' i' n hm => (hnone hm).elim, fun n hn => hn.elim, fun hb => hb.elim⟩
  · rcases emptyShape_place hp with ⟨-, rfl⟩ | ⟨-, rfl⟩ | ⟨-, rfl⟩ | ⟨-, rfl⟩ <;> decide
  · rcases emptyShape_place hp with ⟨rfl, rfl⟩ | ⟨-, rfl⟩ | ⟨-, rfl⟩ | ⟨-, rfl⟩
    · rfl
    · cases h4
    · cases h4
    · cases h4
  · rcases emptySpace_next (hlow hp) hn with ⟨rfl, rfl, -⟩ | ⟨rfl, rfl, rfl⟩ | ⟨rfl, rfl, rfl⟩ |
      ⟨rfl, rfl, rfl⟩
    · cases hp
      exact absurd ⟨rfl, rfl⟩ hs
    · cases hp
      rfl
    · cases hp
      rfl
    · cases hp
      rfl
  · have := emptySpace_next (hlow hp) hn
    rcases emptyShape_place hp with ⟨rfl, -⟩ | ⟨rfl, h⟩ | ⟨rfl, h⟩ | ⟨rfl, h⟩
    · omega
    · cases h
    · cases h
    · cases h
  · exact hused f (hlow hp)

theorem emptySpace_linked : Linked emptyShape (next emptySpace.phys) := by
  intro f p hp hlevel
  rcases emptyShape_place hp with ⟨rfl, rfl⟩ | ⟨rfl, rfl⟩ | ⟨rfl, rfl⟩ | ⟨rfl, rfl⟩
  · exact absurd hlevel (by decide)
  · exact ⟨1, .root 1, 0, rfl, by decide, by decide, by decide, rfl, by decide⟩
  · exact ⟨2, _, 0, rfl, by decide, by decide, by decide, rfl, by decide⟩
  · exact ⟨3, _, 2, rfl, by decide, by decide, by decide, rfl, by decide⟩

theorem emptySpace_plain : PlainTables emptyShape [] emptySpace.phys := by
  intro _ f p hp i _
  have hlow : ¬ 5 ≤ f := by
    have := emptyShape_place hp
    omega
  unfold emptySpace
  dsimp only
  split
  · decide
  split
  · decide
  split
  · decide
  split
  · decide
  decide

theorem userSpace_emptySpace : UserSpace emptyShape emptySpace :=
  ⟨⟨emptySpace_forest (by decide), emptySpace_linked, by decide, emptySpace_plain⟩,
    ⟨rfl, ⟨by decide, by decide⟩, .inl rfl⟩, fun _ h => h.elim⟩

theorem buffer_bufferHeap (file : Mem) : Buffer 0xC0019010 (bufferHeap file) := by
  have htiles : Tiles 0xC0019000 0xC0030000 bufferChunks := by
    refine ⟨rfl, rfl, rfl⟩
  have hsize : ∀ c ∈ bufferChunks, 32 ≤ c.size := by decide
  have htags := tagsOk_writeAll (fun x =>
    if 0xC0019010 ≤ x ∧ x < 0xC001B010 then file (x - 0xC0019010) else 0) htiles hsize (by decide)
  refine ⟨⟨[⟨0xC0019010, 0x2000⟩], 0x2000, ⟨bufferChunks, ?_, ?_⟩, List.mem_singleton.2 rfl, by decide⟩, ?_⟩
  · exact ⟨htiles, hsize, fun c hc => (htags c hc).1, fun c hc _ => (htags c hc).2, .refl _,
      show 0xC0019000 % 4096 = 0 by decide, show 0xC0030000 % 4096 = 0 by decide,
      show 0xC0019000 + heapMinSize ≤ 0xC0030000 by decide,
      show 16 ≤ 0xC0019000 by decide, show 0xC0019000 < 2 ^ 32 by decide,
      show 0xC0030000 ≤ 0xC0019000 + 2 ^ 32 by decide⟩
  · refine ⟨show [0xC0019010].Nodup by decide, fun b hb => ?_⟩
    obtain rfl := List.mem_singleton.1 hb
    exact ⟨_, List.mem_cons_self, rfl, rfl, by decide⟩
  · intro a ha
    have ha : a + 16 ≤ 0xC0019000 ∨ 0xC0030000 ≤ a := ha
    refine magicAt_cleared fun x h1 h2 => ?_
    have hsame := @same_writeAll _ _ _ (fun x =>
      if 0xC0019010 ≤ x ∧ x < 0xC001B010 then file (x - 0xC0019010) else 0) x (x + 1) htiles hsize
      (by omega)
    exact (hsame x (Nat.le_refl _) (Nat.lt_succ_self _)).trans (if_neg (by omega))

/-- The file in its buffer. -/
def fileIn (memsz : Nat) : Mem := image 0xC0019010 (bufferHeap (oneSegment memsz))

theorem fileIn_segment {memsz i : Nat} (hm : memsz = 16 ∨ memsz = 32) (h : Loadable (fileIn memsz) i) :
    i = 0 ∧ vaddr (fileIn memsz) i = 0x400000 ∧ Program.memsz (fileIn memsz) i = memsz ∧
      filesz (fileIn memsz) i = 16 ∧ offset (fileIn memsz) i = 0x100 := by
  have hnum : ePhnum (fileIn memsz) = 1 := by rcases hm with rfl | rfl <;> decide
  obtain rfl : i = 0 := by
    have := h.1
    omega
  refine ⟨rfl, ?_⟩
  rcases hm with rfl | rfl <;> decide

theorem image_fileIn {memsz : Nat} (hm : memsz = 16 ∨ memsz = 32) : Image (fileIn memsz) 0x2000 := by
  refine ⟨?_, by decide, fun i h => ?_, fun i j v h h' => ?_, fun i h => ?_, fun i h => ?_⟩
  · rcases hm with rfl | rfl <;> decide
  · obtain ⟨-, h1, h2, -⟩ := fileIn_segment hm h
    omega
  · rw [(fileIn_segment hm h.1).1, (fileIn_segment hm h'.1).1]
  · obtain ⟨-, -, h1, h2, -⟩ := fileIn_segment hm h
    omega
  · obtain ⟨-, -, -, h1, h2⟩ := fileIn_segment hm h
    omega

/-- The theorem on a file whose segment has no tail; the load gets to its end. -/
theorem loads_program_oneSegment : Returns 0xC0019010 (bufferHeap (oneSegment 16)) emptySpace ∧
    LoadsUnspoiled 0xC0019010 (bufferHeap (oneSegment 16)) emptySpace := by
  have hseg := @fileIn_segment 16
  have hrun : ((loadExecutable 0xC0019010 (bufferHeap (oneSegment 16)) emptySpace).map fun r =>
      (r.1, r.2.2.log.length)) = some (0x400000, 0) := by
    decide +kernel
  obtain ⟨⟨r, h', m'⟩, hload, he⟩ := Option.map_eq_some_iff.1 hrun
  obtain ⟨hr, hlog⟩ : r = 0x400000 ∧ m'.log.length = 0 := by
    simpa only [Prod.mk.injEq] using he
  refine ⟨⟨emptySpace.phys, fun _ _ => rfl, r, h', m', hload, by omega, fun e he => ?_⟩, ?_⟩
  · rw [List.length_eq_zero_iff] at hlog
    have := he.mem
    rw [hlog] at this
    cases this
  · refine (loads_program (image_fileIn (.inl rfl)) userSpace_emptySpace (buffer_bufferHeap _)
      ⟨fun _ he => (nomatch he), fun i q ha => ?_, by decide⟩).2
      fun _ => ⟨fun i v hc => .inl ⟨?_, fun j hj ha => ?_⟩, by decide⟩
    · obtain ⟨hl, h1, h2⟩ := ha
      obtain ⟨-, h3, h4, -⟩ := hseg (.inl rfl) hl
      unfold fileIn at h3 h4
      omega
    · obtain ⟨hl, h1, h2⟩ := hc
      obtain ⟨-, -, h4, h5, -⟩ := hseg (.inl rfl) hl
      unfold fileIn at h4 h5
      refine ⟨hl, h1, ?_⟩
      rw [h5]
      show v < _ + 16
      omega
    · have := (hseg (.inl rfl) ha.1).1
      omega

/-- **The tail of a segment is not cleared**: it holds what its frame held. -/
theorem tail_not_cleared : ¬ ∀ buffer h m s size, Image (image buffer h) size → UserSpace s m →
    Buffer buffer h → LoadsProgram buffer h m := by
  intro hall
  have hrun : ((loadExecutable 0xC0019010 (bufferHeap (oneSegment 32)) emptySpace).map fun r =>
      (r.1, hardwareByte 0x400010 r.2.2)) = some (0x400000, some 0xEE) := by
    decide +kernel
  obtain ⟨⟨r, h', m'⟩, hload, he⟩ := Option.map_eq_some_iff.1 hrun
  obtain ⟨hr, hbyte⟩ : r = 0x400000 ∧ hardwareByte 0x400010 m' = some 0xEE := by
    simpa only [Prod.mk.injEq] using he
  have hcovers : Covers (fileIn 32) 0 0x400010 :=
    ⟨⟨by decide, by decide⟩, by decide, by decide⟩
  have hzero := (hall _ _ _ _ _ (image_fileIn (.inr rfl)) userSpace_emptySpace (buffer_bufferHeap _)
    emptySpace.phys (fun _ _ => rfl) r h' m' hload (by omega)).bytes 0 0x400010 hcovers
  rw [hbyte] at hzero
  revert hzero
  decide

end Program
