import Jaos.Memory.AddressSpace
import Jaos.Memory.RecursiveMap

/-!
# Copying one page

`clone_pml4t` makes 512 passes over every table it copies, and a pass on an entry that is not present
does nothing. So the call in a space with a single page is a handful of steps (`clonePml4t_one`).
-/

namespace Paging

open Lib Memman Kheap

/-- A new cleared table, linked from `entry`. -/
def newTable (fuel : Nat) (entry : Addr) (k : Kernel) : Option (Addr × Kernel) :=
  (kmallocA fuel Memman.memBlockSize k).bind fun table =>
    (table.2.run fun m =>
      (memClearBlock table.1 m).bind (writeLink entry table.1 tableFields)).map fun k => (table.1, k)

/-- The two tables that a clone begins with. -/
def newRoot (fuel : Nat) (k : Kernel) : Option ((Addr × Addr) × Kernel) :=
  (kmallocA fuel Memman.memBlockSize k).bind fun pml4 =>
    (kmallocA fuel Memman.memBlockSize pml4.2).bind fun pdp =>
      (pdp.2.run (cloneRoot pml4.1 pdp.1)).map fun k => ((pml4.1, pdp.1), k)

section
variable {fuel f j n i z y r r' phys : Nat} {a entry pt pd pdp c4 c3 c2 c1 : Addr} {e : Entry}
  {k k1 k2 k3 k4 k5 : Kernel} {body : Kernel → Option Kernel} {fill : Addr → Kernel → Option Kernel}

theorem whenPresent_absent (h : load a k.machine = some e) (he : e.present = false) :
    whenPresent a body k = some k := by
  rw [whenPresent, h, Option.bind_some, if_neg (by rw [he]; decide)]

theorem whenPresent_present (h : load a k.machine = some e) (he : e.present = true) :
    whenPresent a body k = body k := by
  rw [whenPresent, h, Option.bind_some, if_pos he]

theorem cloneTable_present (h : load a k.machine = some e) (he : e.present = true)
    (ht : newTable fuel entry k = some (pt, k1)) : cloneTable fuel a entry fill k = fill pt k1 := by
  obtain ⟨table, htable, ht⟩ := Option.bind_eq_some_iff.1 ht
  obtain ⟨k', hk', ht⟩ := Option.map_eq_some_iff.1 ht
  cases ht
  rw [cloneTable, whenPresent_present h he, htable, Option.bind_some, hk', Option.bind_some]

/-! ## Passes that do nothing -/

theorem clonePage_skip (hw : Window k.machine r) (hi : i < 512) (hz : z < 512)
    (hf : walk (next k.machine.phys) r [0, i, z] = some f) (hle : y + n ≤ 512)
    (habs : ∀ j, j < n → (k.machine.phys f (y + j)).present = false) :
    loop (clonePage fuel pt i z) n y k = some k := by
  refine loop_skip fun j h1 h2 => ?_
  obtain ⟨j, rfl⟩ : ∃ d, j = y + d := ⟨j - y, by omega⟩
  have hidx := Addr.indices_ofIndices (w := 0) (by decide) hi hz (show y + j < 512 by omega)
  obtain ⟨h4, h3, h2', h1'⟩ : _ ∧ _ ∧ _ ∧ _ := by simpa [Addr.indices] using hidx
  have hentry : getPageEntry 0 i z (y + j) = entryAt currentPt (Addr.ofIndices 0 i z (y + j)).frame := by
    rw [← Addr.frame_eq, h4, h3, h2', h1']
    rfl
  have hloc := locate_pt hw (Addr.ofIndices 0 i z (y + j))
  rw [Addr.path, h4, h3, h2', h1', hf] at hloc
  refine whenPresent_absent (load_eq ?_) (habs j (by omega))
  rw [hentry, hloc]
  rfl

theorem clonePt_skip (hw : Window k.machine r) (hi : i < 512)
    (hf : walk (next k.machine.phys) r [0, i] = some f) (hle : z + n ≤ 512)
    (habs : ∀ j, j < n → (k.machine.phys f (z + j)).present = false) :
    loop (clonePt fuel pd i) n z k = some k := by
  refine loop_skip fun j h1 h2 => ?_
  obtain ⟨j, rfl⟩ : ∃ d, j = z + d := ⟨j - z, by omega⟩
  have hloc := locate_pd hw (show 0 < 512 by decide) hi (show z + j < 512 by omega)
  rw [hf] at hloc
  unfold clonePt cloneTable
  exact whenPresent_absent (load_eq hloc) (habs j (by omega))

theorem clonePd_skip (hw : Window k.machine r) (hf : walk (next k.machine.phys) r [0] = some f)
    (hle : i + n ≤ 512) (habs : ∀ j, j < n → (k.machine.phys f (i + j)).present = false) :
    loop (clonePd fuel pdp) n i k = some k := by
  refine loop_skip fun j h1 h2 => ?_
  obtain ⟨j, rfl⟩ : ∃ d, j = i + d := ⟨j - i, by omega⟩
  have hloc := locate_pdp hw (show 0 < 512 by decide) (show i + j < 512 by omega)
  rw [hf] at hloc
  unfold clonePd cloneTable
  exact whenPresent_absent (load_eq hloc) (habs j (by omega))

/-- **One page is copied**, number `y` of the first table, when nothing else is below the kernel. -/
theorem clonePml4t_one {f3 f2 f1 : Nat} {e3 e2 : Entry} (hy : y < 512)
    (hroot : newRoot fuel k = some ((c4, c3), k1))
    (h3 : load (getPdpEntry 0 0) k1.machine = some e3 ∧ e3.present = true)
    (hdir : newTable fuel (entryAt c3 0) k1 = some (c2, k2))
    (h2 : load (getPdEntry 0 0 0) k2.machine = some e2 ∧ e2.present = true)
    (htable : newTable fuel (entryAt c2 0) k2 = some (c1, k3))
    (hw3 : Window k3.machine r') (hwalk3 : walk (next k3.machine.phys) r' [0, 0, 0] = some f1)
    (hbefore : ∀ j, j < y → (k3.machine.phys f1 (0 + j)).present = false)
    (hpage : clonePage fuel c1 0 0 y k3 = some k4)
    (hw : Window k4.machine r) (hf3 : walk (next k4.machine.phys) r [0] = some f3)
    (hf2 : walk (next k4.machine.phys) r [0, 0] = some f2)
    (hf1 : walk (next k4.machine.phys) r [0, 0, 0] = some f1)
    (hpages : ∀ j, j < 511 - y → (k4.machine.phys f1 (y + 1 + j)).present = false)
    (htables : ∀ j, j < 511 → (k4.machine.phys f2 (1 + j)).present = false)
    (hdirs : ∀ j, j < 2 → (k4.machine.phys f3 (1 + j)).present = false)
    (hkernel : k4.run (cloneKernel c4 c3) = some k5)
    (hphys : getPhysicalAddress c4 k5.machine = some phys) :
    clonePml4t fuel k = some (phys, k5) := by
  have hlt0 : (0 : Nat) < 512 := by decide
  have hloop1 : loop (clonePage fuel c1 0 0) 512 0 k3 = some k4 := by
    rw [show 512 = y + (1 + (511 - y)) by omega, loop_add,
      clonePage_skip hw3 hlt0 hlt0 hwalk3 (by omega) hbefore, Option.bind_some, Nat.zero_add, loop_add,
      loop_one, hpage]
    exact clonePage_skip hw hlt0 hlt0 hf1 (by omega) hpages
  have hloop2 : loop (clonePt fuel c2 0) 512 0 k2 = some k4 := by
    have hfirst : clonePt fuel c2 0 0 k2 = some k4 := (cloneTable_present h2.1 h2.2 htable).trans hloop1
    rw [show 512 = 1 + 511 from rfl, loop_add, loop_one, hfirst, Option.bind_some]
    exact clonePt_skip hw hlt0 hf2 (by decide) htables
  have hloop3 : loop (clonePd fuel c3) 3 0 k1 = some k4 := by
    have hfirst : clonePd fuel c3 0 k1 = some k4 := (cloneTable_present h3.1 h3.2 hdir).trans hloop2
    rw [show 3 = 1 + 2 from rfl, loop_add, loop_one, hfirst, Option.bind_some]
    exact clonePd_skip hw hf3 (by decide) hdirs
  obtain ⟨pml4, hpml4, hroot⟩ := Option.bind_eq_some_iff.1 hroot
  obtain ⟨pdp, hpdp, hroot⟩ := Option.bind_eq_some_iff.1 hroot
  obtain ⟨k', hk', hroot⟩ := Option.map_eq_some_iff.1 hroot
  cases hroot
  unfold clonePml4t
  rw [hpml4, Option.bind_some, hpdp, Option.bind_some, hk', Option.bind_some, hloop3, Option.bind_some,
    hkernel, Option.bind_some, hphys]
  rfl

end

end Paging
