import Jaos.Heap.IndexRoom
import Jaos.Heap.Reentry

/-!
# `kfree` of any address

What a call of `kfree` can damage besides the chunks: a tag that is not mapped is a page fault, and its
handler does not return; a slot outside of the array of the index is another variable's memory; and
`heap_t` is read again once the tags are merged. `Kept` says that none of this happens and that the call
returns with the heap as it was; `free_untouched_iff` says that this is so exactly when nothing comes of
the address by the values in memory (`KfreeOk`).

This is about the calls of `kfree` that are alone in the heap: the monitor is not registered yet, or the
call prints nothing. Any other has `puts` enter the heap (`Heap/Reentry`).
-/

namespace Kheap

open Lib OrderedArray

/-- `heap_t` at `record`, the array behind it and the first chunk above, as `create_heap` places them. -/
structure Laid (record : Nat) (h : Heap) : Prop where
  room : h.index.size ≤ h.index.maxSize
  below : record + sizeofHeap + 8 * h.index.maxSize ≤ h.startAddress

/-- `free(p)` up to the point where it looks at `heap_t` again. -/
def freeMerged (p : Nat) (h : Heap) : Nat × Heap :=
  let footer := sub64 (behind h p) sizeofFooter
  let l := freeLeft (headerOf p) footer (onMem (setIsHole (headerOf p) 1) h)
  freeRight l.1 footer l.2.2

section
variable {σ : Type} (mapped : σ → Nat → Bool) (record : Nat) (pg : KernelPages σ)

/-- **No damage** by `kfree(p)`: it returns, uses no slot outside of the array, leaves `heap_t` as it is
while it still reads it, and leaves the heap as it was. -/
structure Kept (p : Nat) (os : Os σ) : Prop where
  mapped : ∀ a ∈ freeTags pg p os.heap os.pages, TagMapped mapped os.pages a
  slots : ∀ j ∈ freeSlots pg p os.heap os.pages, j < os.heap.index.maxSize
  merged : p ≠ 0 → Mem.Same os.heap.mem (freeMerged p os.heap).2.mem record os.heap.startAddress
  kept : ∃ fuel r, (heapCall pg fuel 0 (.free p) os).result = some r ∧
    Untouched record os.heap r.2.heap

/-- **The condition**: every tag that the call touches is mapped, and nothing comes of the address. -/
structure KfreeOk (p : Nat) (os : Os σ) : Prop extends Harmless os.heap p record where
  mapped : ∀ a ∈ freeTags pg p os.heap os.pages, TagMapped mapped os.pages a

end

/-! ## A call that is alone in the heap -/

section
variable {σ : Type} {pg : KernelPages σ} {os : Os σ} {p : Nat}

/-- Without a monitor `puts` takes no lock. -/
theorem putsLocked_unregistered (call : Call → Os σ → Trace (Nat × Os σ)) (hreg : os.monitorLock = -1)
    (msg : String) : putsLocked call msg os = .ok os := by
  have hchars : ∀ str : List Char, putchars call str os = .ok os := by
    intro str
    induction str with
    | nil => rfl
    | cons c str ih =>
      unfold putchars putchar lock unlock
      simp only [if_pos hreg, Trace.bind, Trace.ok] at ih ⊢
      rw [ih]
      rfl
  unfold putsLocked lock unlock
  simp only [if_pos hreg, Trace.bind, Trace.ok, hchars]
  rfl

/-- The calls of `puts` then only print. -/
theorem runCalls_unregistered {α : Type} (call : Call → Os σ → Trace (Nat × Os σ))
    (hreg : os.monitorLock = -1) (prog : Prog (Heap × σ) String α) :
    (runCalls call prog os).result = (prog.exec printed).map fun r => (r.1, os.put r.2) := by
  induction prog generalizing os with
  | ret a x => rfl
  | stuck => rfl
  | call msg x k ih =>
    unfold runCalls
    rw [putsLocked_unregistered call (show (os.put (printed msg x)).monitorLock = -1 from hreg)]
    exact ih (printed msg x) hreg

/-- **A call that is alone in the heap** is `free`. -/
theorem heapCall_free (hq : os.monitorLock = -1 ∨ FreeQuiet os.heap p) (fuel depth : Nat) :
    (heapCall pg (fuel + 1) depth (.free p) os).result =
      some (0, os.put (free pg p os.heap os.pages)) := by
  have hexec := freeCalls_exec pg p os.heap os.pages
  rw [heapCall_succ]
  dsimp only [body]
  rcases hq with hreg | hquiet
  · rw [runCalls_unregistered _ hreg, Prog.exec_bind, hexec]
    rfl
  · rw [Prog.eq_ret_of_exec hexec (mt calls_free.1 (not_not_intro hquiet))]
    rfl

theorem heapCall_free_iff (hq : os.monitorLock = -1 ∨ FreeQuiet os.heap p) {P : Heap → Prop} :
    (∃ fuel r, (heapCall pg fuel 0 (.free p) os).result = some r ∧ P r.2.heap) ↔
      P (free pg p os.heap os.pages).1 := by
  constructor
  · rintro ⟨fuel, r, hr, hP⟩
    cases fuel with
    | zero => cases hr
    | succ fuel =>
      rw [heapCall_free hq] at hr
      obtain rfl := Option.some.inj hr
      exact hP
  · exact fun hP => ⟨0 + 1, _, heapCall_free hq 0 0, hP⟩

end

/-! ## The slots and `heap_t` -/

section
variable {σ : Type} {h : Heap} {p record m : Nat}

theorem freeMerged_mem : ∃ f k, freeMerged p h = (f, k) ∧ k.mem = mergedMem h p := by
  generalize hg : onMem (setIsHole (headerOf p) 1) h = g
  have hgm : g.mem = markedMem h p := by
    rw [← hg, onMem_mem]
    rfl
  obtain ⟨f, k, hright, -, hk, -⟩ := freeRight_marked (h := h) (p := p)
    (g := onMem (fun _ => joinedMem h p) g) (by rw [onMem_mem]) (by rw [onMem_index, ← hg, onMem_index])
  refine ⟨f, k, ?_, hk⟩
  unfold freeMerged
  dsimp only
  rw [hg, freeLeft_marked hgm]
  dsimp only
  rw [hright]

/-- **The calls on the index**: `idx` is the index before the insertion, which takes place unless the left
test passes. -/
theorem freeSlots_marked (pg : KernelPages σ) (s : σ) (hp : p ≠ 0) :
    ∃ k f lt gone idx,
      freeSlots pg p h s =
        (if RightTest h p then removeSlots (indexOf (behind h p) h.index) h.index else []) ++
          (gone ++ if LeftTest h p then [] else insertSlots lt (headerOf p) idx) ∧
      (gone = [] ∧ idx = rightIndex h p ∨
        behind h p ∈ (rightIndex h p).toList ∧ idx.size = sub64 (rightIndex h p).size 1) ∧
      idx = (freeContract pg (startOf h p) f (behind h p) k s).1.index ∧
      add64 f sizeofFooter = lastOf h p ∧ k.mem = mergedMem h p ∧ k.index = rightIndex h p ∧
      k.startAddress = h.startAddress ∧ k.endAddress = h.endAddress := by
  obtain ⟨g, hslots, hgm, hgi, hgs, hge⟩ : ∃ g, freeSlots pg p h s =
      freeMergeSlots pg (headerOf p) (sub64 (behind h p) sizeofFooter) g s ∧ g.mem = markedMem h p ∧
      g.index = h.index ∧ g.startAddress = h.startAddress ∧ g.endAddress = h.endAddress := by
    unfold freeSlots
    rw [if_neg hp]
    refine ⟨_, rfl, ?_⟩
    unfold putsIf puts
    split <;> split <;> exact ⟨rfl, rfl, rfl, rfl⟩
  have hleft := freeLeft_marked hgm
  obtain ⟨f, k, hright, hf, hkm, hki, hks, hke⟩ :=
    freeRight_marked (h := h) (p := p) (g := onMem (fun _ => joinedMem h p) g)
      (by rw [onMem_mem]) (by rw [onMem_index, hgi])
  rw [onMem_startAddress, hgs] at hks
  rw [onMem_endAddress, hge] at hke
  have hbehind : add64 (sub64 (behind h p) sizeofFooter) sizeofFooter = behind h p :=
    add64_sub64 (add64_lt _ _)
  have hremove : freeRightSlots (sub64 (behind h p) sizeofFooter) (onMem (fun _ => joinedMem h p) g) =
      if RightTest h p then removeSlots (indexOf (behind h p) h.index) h.index else [] := by
    unfold freeRightSlots
    rw [hbehind, onMem_mem, onMem_index, hgi]
    by_cases hr : RightTest h p
    · rw [if_pos hr, if_pos (show _ ∧ _ from hr)]
    · rw [if_neg hr, if_neg (show ¬ (_ ∧ _) from hr)]
  have hcon := freeContract_slots pg (startOf h p) f (behind h p) k s
  rw [hki] at hcon
  refine ⟨k, f, headerTLessThan (freeContract pg (startOf h p) f (behind h p) k s).1.mem,
    freeContractSlots pg (startOf h p) f (behind h p) k s,
    (freeContract pg (startOf h p) f (behind h p) k s).1.index, ?_, ?_, rfl, hf, hkm, hki,
    hks, hke⟩
  · rw [hslots]
    unfold freeMergeSlots
    simp only [hleft, hright, hbehind, hremove]
    by_cases hl : LeftTest h p
    · simp [hl]
    · have hstart : startOf h p = headerOf p := if_neg hl
      simp only [hl, not_false_eq_true, decide_true, if_true, if_false, hstart]
      rfl
  · rcases hcon with hnone | ⟨-, hin, -, hidx⟩
    · exact .inl hnone
    · exact .inr ⟨hin, by rw [hidx]; rfl⟩

/-- **A removal from an empty index** wraps the number of entries, and the insertion uses slots far
outside of the array. -/
theorem index_nonempty (pg : KernelPages σ) (s : σ) (hp : p ≠ 0) (hm : m < 2 ^ 64 - 2)
    (hslots : ∀ j ∈ freeSlots pg p h s, j < m) (hleft : ¬ LeftTest h p) (hright : RightTest h p) :
    0 < h.index.size := by
  refine Nat.pos_of_ne_zero fun hzero => ?_
  obtain ⟨-, -, lt, gone, idx, heq, hidx, -⟩ := freeSlots_marked (h := h) pg s hp
  rw [heq, if_neg hleft, List.forall_mem_append, List.forall_mem_append, insertSlots_lt] at hslots
  have hlast := hslots.2.2
  have hsize := rightIndex_size h p
  have hone : sub64 0 1 = 2 ^ 64 - 1 := by decide
  have htwo : sub64 (2 ^ 64 - 1) 1 = 2 ^ 64 - 2 := by decide
  rw [if_pos hright, hzero, hone] at hsize
  rcases hidx with ⟨-, he⟩ | ⟨-, he⟩
  · rw [he, hsize] at hlast
    omega
  · rw [he, hsize, htwo] at hlast
    omega

/-- **A harmless call** stays inside the array. -/
theorem Harmless.slots (pg : KernelPages σ) (s : σ) (hp : p ≠ 0) (pl : Laid record h)
    (hlt : h.index.size < 2 ^ 64) (ok : Harmless h p record) :
    ∀ j ∈ freeSlots pg p h s, j < h.index.maxSize := by
  obtain ⟨k, f, lt, gone, idx, heq, hidx, hcon, hf, hkm, hki, hks, hke⟩ :=
    freeSlots_marked (h := h) pg s hp
  obtain ⟨q, u, hq, -, hcase⟩ := freeContract_marked pg s hf hkm hki hks hke ok.length
  have hkept : q.index = rightIndex h p := by
    rcases hcase with ⟨he, -⟩ | ⟨hn, -⟩
    · exact he
    · exact absurd ok.notGone hn
  rw [hq] at hcon
  have hnone : gone = [] := by
    rcases hidx with ⟨he, -⟩ | ⟨hin, he⟩
    · exact he
    · rw [hcon, hkept] at he
      have hpos := List.length_pos_of_mem hin
      rw [length_toList] at hpos
      unfold sub64 at he
      omega
  rw [heq, hnone, hcon, List.nil_append]
  dsimp only
  rw [hkept]
  have hsize := rightIndex_size h p
  rcases ok.oneTest with ⟨hleft, hnot⟩ | ⟨hleft, hright, hout, hlast, -⟩
  · rw [if_neg hnot, if_pos hleft]
    simp
  · have hpos : 0 < h.index.size := by
      rw [← length_toList]
      exact List.length_pos_of_mem (List.mem_of_getLast? hlast)
    have hroom := pl.room
    rw [if_pos hright, sub64_of_le hpos hlt] at hsize
    rw [if_pos hright, if_neg hleft, List.forall_mem_append, insertSlots_lt, removeSlots_lt,
      indexOf_not_mem hout]
    exact ⟨fun h => absurd h (Nat.lt_irrefl _), by omega⟩

end

/-! ## The call -/

section
variable {σ : Type} {mapped : σ → Nat → Bool} {os : Os σ} {cs : List Chunk} {p record : Nat}

/-- **`kfree(p)` does no damage if and only if `p` is 0 or `KfreeOk`**, whatever `p` is. -/
theorem free_untouched_iff (pg : KernelPages σ) (w : WellFormed os.heap cs) (pl : Laid record os.heap)
    (hq : os.monitorLock = -1 ∨ FreeQuiet os.heap p) :
    Kept mapped record pg p os ↔ p = 0 ∨ KfreeOk mapped record pg p os := by
  have hbelow := pl.below
  have hend := w.endLt
  have hle := w.tiles.le
  have hlt := w.size_lt
  constructor
  · intro k
    refine Decidable.or_iff_not_imp_left.2 fun hp => ⟨?_, k.mapped⟩
    have hmerged := k.merged hp
    obtain ⟨f, g, he, hg⟩ := freeMerged_mem (h := os.heap) (p := p)
    rw [he, hg] at hmerged
    exact ((heapCall_free_iff hq).1 k.kept).harmless pg os.pages w.toIndexed hp (by omega)
      (index_nonempty pg os.pages hp (by omega) k.slots) hmerged
  · intro hcase
    by_cases hp : p = 0
    · subst hp
      refine ⟨by simp [freeTags], by simp [freeSlots], fun h => absurd rfl h, (heapCall_free_iff hq).2 ?_⟩
      unfold free
      rw [if_pos rfl]
      exact ⟨rfl, rfl, .refl _ _ _, rfl⟩
    · have ok := hcase.resolve_left hp
      refine ⟨ok.mapped, ok.slots pg os.pages hp pl (by omega), fun _ => ?_, (heapCall_free_iff hq).2
        (ok.untouched pg os.pages w.toIndexed hp (by omega))⟩
      obtain ⟨f, g, he, hg⟩ := freeMerged_mem (h := os.heap) (p := p)
      rw [he, hg]
      exact ok.merged

end

/-! ## A header outside of the heap, and a block freed twice -/

/-- Memory with a header at `0x1010`, its footer at `0x1020`, and below it the footer of a hole at
`0x2000`. -/
def craftedMem : Mem :=
  setIsHole 0x2000 1 (writeFooter 0x1000 0x2000 (writeFooter 0x1020 0x1010 (writeHeader 0x1010 0 0x20
    fun _ => 0)))

/-- The heap of `kheap_init` in that memory, with the monitor registered. -/
def craftedOs : Os Nat :=
  ⟨createHeap 0xC0010000 0xC0030000 0xd0000000 0 0 craftedMem (fun _ => 0), 0, 0, 0, false, 1⟩

/-- Nothing of the crafted tags is in the heap: all the stores stay outside. -/
theorem free_untouched_crafted :
    Kept (fun _ a => decide (a < 0xC0030000)) 0xC0010000 bumpPages 0x1020 craftedOs := by
  have w : WellFormed craftedOs.heap [⟨0xC0019000, 0x17000, false⟩] :=
    createHeap_wellFormed area0 _ _ _ _ _
  have hleft : LeftTest craftedOs.heap 0x1020 := by decide
  have hright : ¬ RightTest craftedOs.heap 0x1020 := by decide
  have hlast : lastOf craftedOs.heap 0x1020 ≠ craftedOs.heap.endAddress := by decide
  have hquiet : FreeQuiet craftedOs.heap 0x1020 := by decide
  have hbehind : behind craftedOs.heap 0x1020 = 0x1030 := by decide
  have hbelow : below craftedOs.heap 0x1020 = 0x2000 := by decide
  have hmerged : mergedMem craftedOs.heap 0x1020 = joinedMem craftedOs.heap 0x1020 := if_neg hright
  have hstored : storedMem craftedOs.heap 0x1020 = joinedMem craftedOs.heap 0x1020 :=
    (if_neg fun h => hlast h.1).trans hmerged
  have hsame : Mem.Same craftedOs.heap.mem (joinedMem craftedOs.heap 0x1020) 0xC0010000
      craftedOs.heap.endAddress := by
    unfold joinedMem markedMem
    rw [if_pos hleft, hbehind, hbelow]
    exact ((same_setIsHole _ _ (.inr (by decide))).trans (same_setHeader _ _ (.inr (by decide)))).trans
      (same_setSize _ _ (.inr (by decide)))
  refine (free_untouched_iff bumpPages w ⟨by decide, by decide⟩ (.inr hquiet)).2 (.inr ⟨⟨.inl ⟨hleft, hright⟩,
    fun h => absurd h hlast, fun h => absurd h hlast, ?_, ?_⟩, by decide⟩)
  · rw [hmerged]
    exact hsame.mono (Nat.le_refl _) (by decide)
  · rwa [hstored]

/-- **A block freed twice**: the hole is in the index twice. -/
theorem free_again_damages :
    ∃ s cs, Reach Init (Step bumpPages) s ∧ WellFormed s.heap cs ∧
      (∀ c ∈ cs, c.tag = true → 0xC0019010 ≠ c.addr + 16) ∧
      ∀ mapped record, ¬ Kept mapped record bumpPages 0xC0019010 ⟨s.heap, s.pages, 0, 0, false, 1⟩ := by
  have hrun : (runList exec [.alloc 100 0, .alloc 100 0, .free 0xC0019010] sys0).map (fun s =>
      (decide (WellFormed s.heap [⟨0xC0019000, 132, false⟩, ⟨0xC0019084, 132, true⟩,
          ⟨0xC0019108, 93944, false⟩]), decide (FreeQuiet s.heap 0xC0019010), s.heap.index.toList.length,
        (free bumpPages 0xC0019010 s.heap s.pages).1.index.toList.length)) =
      some (true, true, 2, 3) := by
    decide +kernel
  obtain ⟨s, hs, h⟩ := Option.map_eq_some_iff.1 hrun
  simp only [Prod.mk.injEq, decide_eq_true_eq] at h
  obtain ⟨w, hquiet, htwo, hthree⟩ := h
  refine ⟨s, _, .of_list (fun _ _ _ => exec_step) (.start init_sys0) hs, w, by decide,
    fun mapped record k => ?_⟩
  have u := (heapCall_free_iff (.inr hquiet)).1 k.kept
  have hlen := congrArg List.length u.index
  dsimp only at hlen
  omega

end Kheap
